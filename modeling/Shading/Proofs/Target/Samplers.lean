import Shading.Proofs.Elaboration.Resources
import Shading.Proofs.Model.Renaming
import Shading.Proofs.Target.Emission

/-!
# Sources without samplers

Where textures are declared with their samplers, samplers on their own are not declared,
so a source must not name one (`Glsl.Version.Combines`).  Resources stand only where they
are taken (`Function.PlacesResources`), which leaves one place for a sampler: behind the
texture that is sampled through it.  The text of an operand in this place is dropped.

So the names of samplers play no part.  A model that calls its samplers by other names,
without calling two resources alike, has the same sources (`generate_renameResources`).
-/

namespace Shading

open Shading.Core (Expr Stmt Case)

/-! ## Bodies -/

namespace Dialect

variable {d : Dialect} {c c' : Context} {ρ : String → String}

theorem operands_renameAll {args : List Expr}
    (h : ∀ e ∈ args, d.expr c' (e.renameResources ρ) = d.expr c e) :
    d.operands c' (Expr.renameAll ρ args) = d.operands c args := by
  induction args with
  | nil => rfl
  | cons e rest ih =>
    simp only [Expr.renameAll, operands, h e (.head _), ih fun x hx => h x (.tail _ hx),
      Expr.ty_renameResources]

/-- A statement on one line is written alike where its expressions are. -/
theorem simple_renameResources (hsymbol : c'.symbol = c.symbol) {s : Stmt}
    (h : ∀ e, s.Holds e → d.expr c' (e.renameResources ρ) = d.expr c e) :
    d.simple c' (s.renameResources ρ) = d.simple c s := by
  cases s with
  | declare name ty init =>
    cases init with
    | none => rfl
    | some init => simp only [Stmt.renameResources, Option.map_some, simple, h init .init]
  | assign target op value =>
    simp only [Stmt.renameResources, simple, h target .target, h value .value]
  | expr value => simp only [Stmt.renameResources, simple, h value .expr]
  | _ => simp only [Stmt.renameResources, simple, hsymbol]

theorem stmts_renameAll {body : List Stmt}
    (h : ∀ s ∈ body, d.stmt c' (s.renameResources ρ) = d.stmt c s) :
    d.stmts c' (Stmt.renameAll ρ body) = d.stmts c body := by
  induction body with
  | nil => simp only [Stmt.renameAll, stmts]
  | cons s rest ih =>
    simp only [Stmt.renameAll, stmts, h s (.head _), ih fun t ht => h t (.tail _ ht)]

theorem mapM_simple_renameAll {body : List Stmt}
    (h : ∀ s ∈ body, d.simple c' (s.renameResources ρ) = d.simple c s) :
    (Stmt.renameAll ρ body).mapM (d.simple c') = body.mapM (d.simple c) := by
  induction body with
  | nil => simp only [Stmt.renameAll]; rfl
  | cons s rest ih =>
    simp only [Stmt.renameAll, List.mapM_cons, h s (.head _), ih fun t ht => h t (.tail _ ht)]

theorem cases_renameCases {list : List Case}
    (h : ∀ k ∈ list, d.stmts c' (Stmt.renameAll ρ k.body) = d.stmts c k.body) :
    d.cases c' (Stmt.renameCases ρ list) = d.cases c list := by
  induction list with
  | nil => simp only [Stmt.renameCases, Dialect.cases]
  | cons k rest ih =>
    obtain ⟨labels, body⟩ := k
    have hbody : d.stmts c' (Stmt.renameAll ρ body) = d.stmts c body := h _ (.head _)
    simp only [Stmt.renameCases, Dialect.cases, hbody, ih fun k hk => h k (.tail _ hk)]

/-- A statement is written alike where the expressions in it are, at any depth. -/
theorem stmt_renameResources (hsymbol : c'.symbol = c.symbol) {s : Stmt}
    (h : ∀ t : Stmt, t.Within s → ∀ e, t.Holds e →
      d.expr c' (e.renameResources ρ) = d.expr c e) :
    d.stmt c' (s.renameResources ρ) = d.stmt c s := by
  induction s using Stmt.induct with
  | h s ih =>
    have hs := h s .self
    have hnested : ∀ body ∈ s.bodies, ∀ t ∈ body,
        d.stmt c' (t.renameResources ρ) = d.stmt c t :=
      fun body hb t ht => ih body hb t ht fun u hu => h u (.of_body hb ht hu)
    have hbody : ∀ body ∈ s.bodies, d.stmts c' (Stmt.renameAll ρ body) = d.stmts c body :=
      fun body hb => stmts_renameAll (hnested body hb)
    have hsimple : ∀ body ∈ s.bodies, ∀ t ∈ body,
        d.simple c' (t.renameResources ρ) = d.simple c t :=
      fun body hb t ht => simple_renameResources hsymbol (h t (.of_body hb ht .self))
    cases s with
    | declare | assign | expr =>
      have hline := simple_renameResources hsymbol hs
      simp only [Stmt.renameResources] at hline
      simp only [Stmt.renameResources, stmt, simpleLine, hline]
    | branch condition yes no =>
      have hyes := hbody yes (by simp [Stmt.bodies])
      cases no with
      | none =>
        simp only [Stmt.renameResources, Stmt.renameOption, stmt, elseBlock, hs _ .branch, hyes]
      | some no =>
        have hno := hbody no (by simp [Stmt.bodies])
        simp only [Stmt.renameResources, Stmt.renameOption, stmt, elseBlock, hs _ .branch, hyes,
          hno]
    | forLoop init condition step body =>
      have hcondition : d.optionalExpr c' (condition.map (Expr.renameResources ρ)) =
          d.optionalExpr c condition := by
        cases condition with
        | none => rfl
        | some e => exact hs e .forLoop
      have hstep := mapM_simple_renameAll (hsimple step (by simp [Stmt.bodies]))
      have hcode := hbody body (by simp [Stmt.bodies])
      have hinit : init ∈ (Stmt.forLoop init condition step body).bodies := by
        simp [Stmt.bodies]
      simp only [Stmt.renameResources, stmt, hcondition, hstep]
      -- One initializer stands in the header, and several before the loop.
      rcases init with _ | ⟨first, _ | ⟨second, rest⟩⟩
      · simp only [Stmt.renameAll, hcode]
      · simp only [Stmt.renameAll, hsimple _ hinit first (.head _), hcode]
      · have hrest := stmts_renameAll fun t ht => hnested _ hinit t (.tail _ ht)
        simp only [Stmt.renameAll] at hrest
        simp only [Stmt.renameAll, hnested _ hinit first (.head _), hrest, hcode]
    | whileLoop condition body =>
      simp only [Stmt.renameResources, stmt, hs _ .whileLoop, hbody body (by simp [Stmt.bodies])]
    | doLoop body condition =>
      simp only [Stmt.renameResources, stmt, hs _ .doLoop, hbody body (by simp [Stmt.bodies])]
    | switch selector cases default =>
      have hcases := @cases_renameCases d c c' ρ cases fun k hk =>
        hbody k.body (List.mem_append_left _ (List.mem_map_of_mem hk))
      cases default with
      | none =>
        simp only [Stmt.renameResources, Stmt.renameOption, stmt, defaultBlock, hs _ .selector,
          hcases]
      | some body =>
        have hdefault := hbody body (by simp [Stmt.bodies])
        simp only [Stmt.renameResources, Stmt.renameOption, stmt, defaultBlock, hs _ .selector,
          hcases, hdefault]
    | ret value =>
      cases value with
      | none => rfl
      | some e => simp only [Stmt.renameResources, Option.map_some, stmt, hs e .ret]
    | leave | next => rfl
    | block body =>
      simp only [Stmt.renameResources, stmt, hbody body (by simp [Stmt.bodies])]

end Dialect

/-- Samplers get other names.  All other resources keep theirs, and no two get one name. -/
structure Model.RenamesSamplers (m : Model) (ρ : String → String) : Prop where
  apart : m.KeptApart ρ
  kept : ∀ b ∈ m.resources, b.ty.kind ≠ .sampler → ρ b.name = b.name

/-- The references to resources in a body are found in a model, and those to samplers are of
the type of a sampler. -/
def Function.Refers (m : Model) (f : Function) : Prop :=
  ∀ name ty, (Expr.resource name ty).OccursIn f.body →
    ∃ b, m.resource? name = some b ∧ (b.ty.kind = .sampler → ty.resourceKind? = some .sampler)

theorem Model.name_of_resource? {m : Model} {name : String} {b : Binding}
    (h : m.resource? name = some b) : b.name = name := by simpa using List.find?_some h

namespace Glsl

/-! ## Versions that combine textures and samplers -/

/-- Textures are declared with their samplers, and what is sampled is the texture. -/
structure Version.Combines (v : Version) : Prop where
  undeclared : .separateSamplers ∉ v.capabilities
  dropped : ∀ texture sampler sampler',
    v.samplerText texture sampler = v.samplerText texture sampler'

theorem combines_core330 : core330.Combines := ⟨by decide, fun _ _ _ => rfl⟩

theorem combines_es300 : es300.Combines := ⟨by decide, fun _ _ _ => rfl⟩

variable {v : Version} {p : Program} {m : Model} {ρ : String → String} {stage : Stage}
  {f : Function}

/-- Samplers are not declared. -/
theorem Version.Combines.resource_eq (hv : v.Combines) {c : Context} {b : Binding}
    (hb : b.ty.kind = .sampler) : resource v c b = .ok [] := by
  simp only [resource, hb]
  exact if_pos ⟨trivial, hv.undeclared⟩

/-- The text of the sampler that a texture is sampled through is dropped. -/
theorem Version.Combines.intrinsic_eq (hv : v.Combines) {i : Intrinsic}
    (hi : i = .sample ∨ i = .sampleLevel) (symbol : String) (texture sampler sampler' : Operand)
    (rest : List Operand) :
    (dialect v).intrinsic symbol i (texture :: sampler' :: rest) =
      (dialect v).intrinsic symbol i (texture :: sampler :: rest) := by
  cases rest with
  | nil => rcases hi with rfl | rfl <;> rfl
  | cons coordinates rest =>
    have htext : sampleText v texture sampler' coordinates rest.head? =
        sampleText v texture sampler coordinates rest.head? := by
      simp only [sampleText, hv.dropped texture sampler' sampler]
    rcases hi with rfl | rfl
    all_goals simp only [Dialect.intrinsic, dialect, ownIntrinsic?, htext]

/-- A texture is sampled alike through samplers of any text. -/
theorem Version.Combines.expr_sample (hv : v.Combines) {i : Intrinsic}
    (hi : i = .sample ∨ i = .sampleLevel) {c c' : Context}
    {texture texture' sampler sampler' : Expr} {args args' : List Expr} {ty : Ty} {s s' : String}
    (htexture : (dialect v).expr c' texture' = (dialect v).expr c texture)
    (hty : texture'.ty = texture.ty) (hs : (dialect v).expr c sampler = .ok s)
    (hs' : (dialect v).expr c' sampler' = .ok s')
    (hargs : (dialect v).operands c' args' = (dialect v).operands c args)
    (hsymbol : c'.symbol = c.symbol) :
    (dialect v).expr c' (.intrinsic i (texture' :: sampler' :: args') ty) =
      (dialect v).expr c (.intrinsic i (texture :: sampler :: args) ty) := by
  simp only [Dialect.expr, Dialect.operands, htexture, hty, hs, hs', hargs, hsymbol]
  cases (dialect v).expr c texture with
  | error => rfl
  | ok text =>
    cases (dialect v).operands c args with
    | error => rfl
    | ok rest => exact hv.intrinsic_eq hi c.symbol ⟨text, texture.ty⟩ _ _ rest

/-! ## Bodies under other names -/

theorem expr_resource {c : Context} {name : String} {b : Binding}
    (hb : c.model.resource? name = some b) (ty : Ty) :
    (dialect v).expr c (.resource name ty) = .ok ((dialect v).identifier b.name) := by
  simp only [Dialect.expr, hb]

section Body

variable (hv : v.Combines) (hρ : m.RenamesSamplers ρ) (hplaces : f.PlacesResources p)
  (hrefers : f.Refers m)

include hρ hrefers in
/-- A reference is found under the new name. -/
theorem exists_expr_renamed (v : Version) (stage : Stage) {name : String} {ty : Ty}
    (h : (Expr.resource name ty).OccursIn f.body) :
    ∃ b : Binding, (dialect v).expr ⟨m, stage, some f⟩ (.resource name ty) =
        .ok ((dialect v).identifier b.name) ∧
      (dialect v).expr ⟨m.renameResources ρ, stage, some (f.renameResources ρ)⟩
        (.resource (ρ name) ty) = .ok ((dialect v).identifier (ρ b.name)) ∧
      (ty.resourceKind? ≠ some .sampler → ρ b.name = b.name) := by
  obtain ⟨b, hb, hsampler⟩ := hrefers name ty h
  have hmem : b ∈ m.resources := List.mem_of_find?_eq_some hb
  obtain rfl := Model.name_of_resource? hb
  refine ⟨b, expr_resource hb ty, ?_, fun hne => hρ.kept b hmem fun hk => hne (hsampler hk)⟩
  have hlookup := Model.resource?_renameResources hρ.apart hmem
  rw [hb] at hlookup
  simp only [Dialect.expr, hlookup, Option.map_some]
  rfl

include hv hρ hplaces hrefers in
/-- All expressions but samplers are written alike under the new names. -/
theorem expr_renameResources {e : Expr} (hocc : ∀ x : Expr, x.Within e → x.OccursIn f.body)
    (hne : e.ty.resourceKind? ≠ some .sampler) :
    (dialect v).expr ⟨m.renameResources ρ, stage, some (f.renameResources ρ)⟩
        (e.renameResources ρ) =
      (dialect v).expr ⟨m, stage, some f⟩ e := by
  induction e using Expr.induct with
  | h e ih =>
    have hchild : ∀ c ∈ e.children, c.ty.resourceKind? ≠ some .sampler →
        (dialect v).expr ⟨m.renameResources ρ, stage, some (f.renameResources ρ)⟩
            (c.renameResources ρ) =
          (dialect v).expr ⟨m, stage, some f⟩ c :=
      fun c hc => ih c hc fun x hx => hocc x (.of_child hc hx)
    have htakes : ∀ (n : Nat) (c : Expr), e.children[n]? = some c →
        c.ty.resourceKind? = some .sampler → c.Takes e n := by
      intro n c hc hs
      rcases hplaces.parts e (hocc e .self) n c hc with hvalue | htakes
      · cases (show c.ty.isResource = false from hvalue).symm.trans
          (Ty.isResource_of_resourceKind? hs)
      · exact htakes
    by_cases hs : ∃ x ∈ e.children, x.ty.resourceKind? = some .sampler
    · -- The sampler stands behind the texture, and no other part is a sampler.
      obtain ⟨x, hx, hs⟩ := hs
      obtain ⟨n, hn⟩ := List.getElem?_of_mem hx
      obtain ⟨-, i, texture, args, ty, hi, rfl⟩ := (htakes n x hn hs).of_sampler hs
      have hlone : ∀ (n : Nat) (c : Expr), n ≠ 1 → (texture :: x :: args)[n]? = some c →
          c.ty.resourceKind? ≠ some .sampler :=
        fun n c hn hc hcs => hn ((htakes n c hc hcs).of_sampler hcs).1
      have htexture := hchild texture (.head _) (hlone 0 texture (by decide) rfl)
      have hargs := Dialect.operands_renameAll fun c hc => by
        obtain ⟨k, hk⟩ := List.getElem?_of_mem hc
        exact hchild c (.tail _ (.tail _ hc)) (hlone (k + 2) c (by omega) hk)
      obtain ⟨name, r, rfl, -⟩ := hplaces.reference x (hocc x (.of_child hx .self))
        (Ty.isResource_of_resourceKind? hs)
      obtain ⟨b, hold, hnew, -⟩ := exists_expr_renamed hρ hrefers v stage
        (hocc _ (.of_child hx .self))
      simp only [Expr.renameResources, Expr.renameAll]
      exact hv.expr_sample hi htexture (Expr.ty_renameResources ρ texture) hold hnew hargs rfl
    · simp only [not_exists, not_and] at hs
      have hparts := fun c hc => hchild c hc (hs c hc)
      cases e with
      | literal | var => simp only [Expr.renameResources, Dialect.expr]
      | resource name ty =>
        obtain ⟨b, hold, hnew, hname⟩ := exists_expr_renamed hρ hrefers v stage
          (hocc _ .self)
        rw [Expr.renameResources, hold, hnew, hname hne]
      | field base | swizzle base =>
        simp only [Expr.renameResources, Dialect.expr, hparts base (by simp [Expr.children])]
      | index base position =>
        simp only [Expr.renameResources, Dialect.expr, hparts base (by simp [Expr.children]),
          hparts position (by simp [Expr.children])]
      | unary op operand =>
        simp only [Expr.renameResources, Dialect.expr, hparts operand (by simp [Expr.children])]
      | binary op lhs rhs =>
        simp only [Expr.renameResources, Dialect.expr, hparts lhs (by simp [Expr.children]),
          hparts rhs (by simp [Expr.children]), Expr.ty_renameResources]
      | conditional condition yes no =>
        simp only [Expr.renameResources, Dialect.expr, hparts condition (by simp [Expr.children]),
          hparts yes (by simp [Expr.children]), hparts no (by simp [Expr.children])]
      | call function args =>
        have hargs := Dialect.operands_renameAll hparts
        simp only [Expr.children] at hargs
        simp only [Expr.renameResources, Dialect.expr, Model.function?_renameResources, hargs]
        cases m.function? function <;> rfl
      | intrinsic i args =>
        have hargs := Dialect.operands_renameAll hparts
        simp only [Expr.children] at hargs
        simp only [Expr.renameResources, Dialect.expr, hargs]
        rfl
      | construct args ty =>
        have hargs := Dialect.operands_renameAll hparts
        simp only [Expr.children] at hargs
        simp only [Expr.renameResources, Dialect.expr, hargs]
      | cast operand ty =>
        simp only [Expr.renameResources, Dialect.expr, hparts operand (by simp [Expr.children])]

include hv hρ hplaces hrefers in
/-- A function is written alike under the new names. -/
theorem function_renameResources :
    (dialect v).function ⟨m.renameResources ρ, stage, none⟩ (f.renameResources ρ) =
      (dialect v).function ⟨m, stage, none⟩ f := by
  have hbody : (dialect v).stmts ⟨m.renameResources ρ, stage, some (f.renameResources ρ)⟩
      (Stmt.renameAll ρ f.body) = (dialect v).stmts ⟨m, stage, some f⟩ f.body := by
    refine Dialect.stmts_renameAll fun s hs =>
      Dialect.stmt_renameResources (by rfl) fun t ht e he => ?_
    have hvalue : e.ty.isResource = false := hplaces.values t ⟨s, hs, ht⟩ e he
    refine expr_renameResources hv hρ hplaces hrefers
      (fun x hx => ⟨t, ⟨s, hs, ht⟩, e, he, hx⟩) fun hsampler => ?_
    cases hvalue.symm.trans (Ty.isResource_of_resourceKind? hsampler)
  simp only [Dialect.function, Dialect.functionWith, Context.within]
  rw [show (f.renameResources ρ).body = Stmt.renameAll ρ f.body from rfl, hbody]
  rfl

end Body

/-! ## Sources under other names -/

/-- A resource is declared alike under the new name. -/
theorem resource_rename (hv : v.Combines) (hρ : m.RenamesSamplers ρ) {b : Binding}
    (hb : b ∈ m.resources) :
    resource v ⟨m.renameResources ρ, stage, none⟩ (b.rename ρ) =
      resource v ⟨m, stage, none⟩ b := by
  by_cases hk : b.ty.kind = .sampler
  · rw [hv.resource_eq hk, hv.resource_eq (by exact hk)]
  · have hname : b.rename ρ = b := by rw [Binding.rename, hρ.kept b hb hk]
    rw [hname]
    rfl

theorem entry_renameResources (fixup : Fixup)
    (hf : (dialect v).function ⟨m.renameResources ρ, stage, none⟩ (f.renameResources ρ) =
      (dialect v).function ⟨m, stage, none⟩ f) :
    entry v fixup ⟨m.renameResources ρ, stage, none⟩ (f.renameResources ρ) =
      entry v fixup ⟨m, stage, none⟩ f := by
  simp only [entry, hf]
  rfl

theorem header_renameResources
    (hr : (m.renameResources ρ).resourcesFor stage =
      (m.resourcesFor stage).map (Binding.rename ρ)) :
    header v ⟨m.renameResources ρ, stage, none⟩ = header v ⟨m, stage, none⟩ := by
  have hstorage : ((m.renameResources ρ).resourcesFor stage).any (·.ty.kind = .structuredBuffer) =
      (m.resourcesFor stage).any (·.ty.kind = .structuredBuffer) := by
    rw [hr, List.any_map]
    rfl
  have hgroup : ((m.renameResources ρ).entryFunction? stage).bind (·.groupSize) =
      (m.entryFunction? stage).bind (·.groupSize) := by
    rw [Model.entryFunction?_renameResources]
    cases m.entryFunction? stage <;> rfl
  simp only [header, hstorage, hgroup]

/-- A model that calls its samplers by other names has the same sources. -/
theorem generate_renameResources (hv : v.Combines) (hρ : m.RenamesSamplers ρ)
    (hs : ∀ name ∈ (m.usageOf stage).resources, name ∈ m.resources.map (·.name))
    (hplaces : ∀ f ∈ m.functions, f.PlacesResources p) (hrefers : ∀ f ∈ m.functions, f.Refers m)
    (fixup : Option Fixup) :
    (language v fixup).generate (m.renameResources ρ) stage =
      (language v fixup).generate m stage := by
  have hresources := Model.resourcesFor_renameResources hρ.apart hs
  have hfunction : ∀ f ∈ m.functions,
      (dialect v).function ⟨m.renameResources ρ, stage, none⟩ (f.renameResources ρ) =
        (dialect v).function ⟨m, stage, none⟩ f :=
    fun f hf => function_renameResources hv hρ (hplaces f hf) (hrefers f hf)
  have hdeclarations : Language.collect (resource v ⟨m.renameResources ρ, stage, none⟩)
      ((m.renameResources ρ).resourcesFor stage) =
        Language.collect (resource v ⟨m, stage, none⟩) (m.resourcesFor stage) := by
    rw [hresources]
    exact Language.collect_map fun b hb => resource_rename hv hρ (List.mem_filter.1 hb).1
  have hhelpers : Language.collect ((dialect v).function ⟨m.renameResources ρ, stage, none⟩)
      (((m.renameResources ρ).functionsFor stage).filter
        fun g => !(m.renameResources ρ).isEntry stage g) =
      Language.collect ((dialect v).function ⟨m, stage, none⟩)
        ((m.functionsFor stage).filter fun g => !m.isEntry stage g) := by
    rw [Model.functionsFor_renameResources, List.filter_map]
    exact Language.collect_map fun g hg =>
      hfunction g (List.mem_filter.1 (List.mem_filter.1 hg).1).1
  simp only [Language.generate, Language.code, Model.entryFunction?_renameResources]
  cases hf : m.entryFunction? stage with
  | none => rfl
  | some f =>
    have hmem : f ∈ m.functions := by
      obtain ⟨name, -, hname⟩ := Option.bind_eq_some_iff.1 hf
      exact List.mem_of_find?_eq_some hname
    have harrangement : (language v fixup).arrangement ⟨m.renameResources ρ, stage, none⟩
        (f.renameResources ρ) = (language v fixup).arrangement ⟨m, stage, none⟩ f := by
      simp only [language, Language.inOrder, hdeclarations, hhelpers,
        entry_renameResources _ (hfunction f hmem)]
    simp only [Option.map_some, harrangement, Model.structsFor_renameResources]
    rw [show (language v fixup).header = header v from rfl, header_renameResources hresources]
    rfl

end Glsl

namespace Program

variable {p : Program} {set : EntrySet} {m : Model} {reached : Expanded Function}
  {uses : List StageUse}

/-! ## Models that were built -/

namespace BuiltFrom

/-- What a stage reaches is in the model. -/
theorem mem_resources_of_usage (h : BuiltFrom p set m reached uses) {stage : Stage} {name : String}
    (hname : name ∈ (m.usageOf stage).resources) : name ∈ m.resources.map (·.name) := by
  cases hs : set.entryName? stage with
  | none =>
    rw [h.usageOf_of_none hs] at hname
    cases hname
  | some entry =>
    exact (h.model_exact.resources name).2 ⟨stage, EntrySet.mem_stages_of_entryName? hs, hname⟩

theorem placesResources (h : BuiltFrom p set m reached uses) {f : Function}
    (hf : f ∈ m.functions) : f.PlacesResources p := by
  obtain ⟨d, -, hd⟩ := h.model_exact.hasFunction f hf
  exact placesResources_of_elaborateFunction hd

/-- A reference is of the type of the resource, unless that is a uniform buffer. -/
theorem refers (h : BuiltFrom p set m reached uses) {f : Function} (hf : f ∈ m.functions) :
    f.Refers m := by
  intro name ty hocc
  obtain ⟨b, hb⟩ := h.resolves hf hocc
  have hhas := h.model_exact.hasResource b (List.mem_of_find?_eq_some hb)
  rw [Model.name_of_resource? hb] at hhas
  obtain ⟨d, -, hd⟩ := h.model_exact.hasFunction f hf
  refine ⟨b, hb, fun hk => ?_⟩
  cases (typed_expr_of_elaborateFunction hd hocc).1 with
  | uniform hhas' hu =>
    rw [hhas'.unique hhas, hk] at hu
    cases hu
  | resource hhas' =>
    rw [hhas'.unique hhas]
    simp [Ty.resourceKind?, hk]

end BuiltFrom

/-- Resources stand in the code of a program only where targets can spell them. -/
structure PlacesResources (p : Program) : Prop where
  functions : ∀ d f, p.elaborateFunction d = .ok f → f.PlacesResources p
  /-- Desktop GLSL and GLSL ES declare no sampler. -/
  undeclared : ∀ t : Target, t = .glsl330 ∨ t = .glslEs300 → ∀ fixup c (b : Binding),
    b.ty.kind = .sampler → (t.language fixup).resource c b = .ok []
  /-- They name none either: a sampler by another name changes no source. -/
  unnamed : ∀ set m, p.build set = .ok m → ∀ b ∈ m.resources, b.ty.kind = .sampler →
    ∀ name, name ∉ m.resources.map (·.name) → ∀ t : Target, t = .glsl330 ∨ t = .glslEs300 →
      ∀ fixup stage,
        (t.language fixup).generate (m.renameResources (Model.rename b.name name)) stage =
          (t.language fixup).generate m stage

/-- A sampler of a model that was built gets a name that no other resource has. -/
theorem BuiltFrom.renamesSamplers (h : BuiltFrom p set m reached uses) {b : Binding}
    (hb : b ∈ m.resources) (hk : b.ty.kind = .sampler) {name : String}
    (hname : name ∉ m.resources.map (·.name)) :
    m.RenamesSamplers (Model.rename b.name name) where
  apart := Model.keptApart_rename hname
  kept c hc hne := by
    refine if_neg fun heq => hne ?_
    rw [List.inj_on_of_nodup_map h.model_exact.resources_once hc hb heq, hk]

/-- Every program places its resources so, and GLSL with combined samplers names none. -/
theorem resources_placed (p : Program) : p.PlacesResources where
  functions _ _ := placesResources_of_elaborateFunction
  undeclared t ht fixup c b hb := by
    rcases ht with rfl | rfl
    · exact Glsl.combines_core330.resource_eq hb
    · exact Glsl.combines_es300.resource_eq hb
  unnamed set m hm b hb hk name hname t ht fixup stage := by
    obtain ⟨reached, uses, h⟩ := builtFrom_of_build hm
    have hρ := h.renamesSamplers hb hk hname
    have hsame : ∀ v : Glsl.Version, v.Combines →
        (Glsl.language v fixup).generate (m.renameResources (Model.rename b.name name)) stage =
          (Glsl.language v fixup).generate m stage := fun v hv =>
      Glsl.generate_renameResources hv hρ (fun _ => h.mem_resources_of_usage)
        (fun _ => h.placesResources) (fun _ => h.refers) fixup
    rcases ht with rfl | rfl
    · exact hsame _ Glsl.combines_core330
    · exact hsame _ Glsl.combines_es300

end Program

end Shading
