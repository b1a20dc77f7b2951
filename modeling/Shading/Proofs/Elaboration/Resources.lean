import Shading.Proofs.Elaboration.Places

/-!
# Where resources stand

Values and resources are expressions alike, and the typing rules tell them apart.  An
expression that has the type of a resource is a reference to a declared one, and a
reference stands in few places (`Expr.Takes`): a structured buffer is indexed, a texture
is sampled through a sampler, and a multisample texture is loaded from.  A uniform buffer
is referred to as the value it holds.

All other places are for values.  This is read off the rules, one case for each form of
an expression (`Expr.Typed.takes`) and of a statement (`Stmt.Typed.isValue`).
-/

namespace Shading

/-- The textures that are sampled. -/
def ResourceKind.isSampled : ResourceKind → Bool
  | .texture2D | .texture2DArray | .textureCube | .depthTexture2D => true
  | .texture2DMS | .sampler | .uniformBuffer | .structuredBuffer => false

/-- A texture has coordinates for sampling exactly when it is sampled. -/
theorem ResourceKind.isSome_sampleDimension? (kind : ResourceKind) :
    (Core.sampleDimension? kind).isSome = kind.isSampled := by cases kind <;> rfl

theorem Ty.isResource_of_resourceKind? {ty : Ty} {kind : ResourceKind}
    (h : ty.resourceKind? = some kind) : ty.isResource = true := by
  obtain ⟨r, hr, -⟩ := Option.map_eq_some_iff.1 h
  simp [isResource, hr]

theorem Ty.isResource_of_isIntegerScalar {ty : Ty} (h : ty.isIntegerScalar = true) :
    ty.isResource = false := by cases ty <;> first | rfl | cases h

theorem Ty.isResource_of_isIntegerPair {ty : Ty} (h : ty.isIntegerPair = true) :
    ty.isResource = false := by cases ty <;> first | rfl | cases h

theorem Ty.isResource_of_isInterface {ty : Ty} (h : ty.isInterface = true) :
    ty.isResource = false := by cases ty <;> first | rfl | cases h

/-- What goes into a constructor is no resource. -/
theorem Ty.Composes.isResource {args : List Ty} {ty a : Ty} (h : Composes args ty) (ha : a ∈ args) :
    a.isResource = false := by
  cases h with
  | vector hargs => exact isResource_of_isInterface (hargs a ha)
  | fill hone =>
    obtain rfl := List.mem_singleton.1 ha
    cases a <;> first | rfl | cases hone
  | matrix hargs => exact isResource_of_isInterface (hargs a ha)

namespace Core

/-- A texture that can be sampled, and a sampler. -/
structure Expr.SampledThrough (texture sampler : Expr) : Prop where
  texture : ∃ kind, texture.ty.resourceKind? = some kind ∧ kind.isSampled = true
  sampler : sampler.ty.resourceKind? = some .sampler

/-- An expression takes a resource as its part at a position. -/
inductive Expr.Takes (x : Expr) : Expr → (position : Nat) → Prop where
  /-- A structured buffer is indexed. -/
  | buffer {position ty} : x.ty.resourceKind? = some .structuredBuffer →
      Takes x (.index x position ty) 0
  /-- A texture is sampled. -/
  | texture {i sampler args ty} : i = .sample ∨ i = .sampleLevel → x.SampledThrough sampler →
      Takes x (.intrinsic i (x :: sampler :: args) ty) 0
  /-- A texture is sampled through a sampler. -/
  | sampler {i texture args ty} : i = .sample ∨ i = .sampleLevel → texture.SampledThrough x →
      Takes x (.intrinsic i (texture :: x :: args) ty) 1
  /-- A multisample texture is loaded from. -/
  | loaded {args ty} : x.ty.resourceKind? = some .texture2DMS →
      Takes x (.intrinsic .load (x :: args) ty) 0

/-- A sampler is taken behind the texture that is sampled, and nowhere else. -/
theorem Expr.Takes.of_sampler {x e : Expr} {n : Nat} (h : x.Takes e n)
    (hx : x.ty.resourceKind? = some .sampler) :
    n = 1 ∧ ∃ i texture args ty, (i = .sample ∨ i = .sampleLevel) ∧
      e = .intrinsic i (texture :: x :: args) ty := by
  cases h with
  | buffer hk => cases hk.symm.trans hx
  | texture _ hs =>
    obtain ⟨kind, hk, hsampled⟩ := hs.texture
    obtain rfl := Option.some.inj (hk.symm.trans hx)
    cases hsampled
  | sampler hi => exact ⟨rfl, _, _, _, _, hi, rfl⟩
  | loaded hk => cases hk.symm.trans hx

section Rules

variable {p : Program}

/-- A texture that is sampled, and the sampler behind it, are taken. -/
theorem Expr.takes_of_samples {i : Intrinsic} (hi : i = .sample ∨ i = .sampleLevel)
    {texture sampler coordinates : Expr} {rest : List Expr} {ty : Ty}
    (h : texture.ty.Samples sampler.ty coordinates.ty) (hrest : ∀ c ∈ rest, c.IsValue)
    {n : Nat} {x : Expr} (hx : (texture :: sampler :: coordinates :: rest)[n]? = some x)
    (hr : x.ty.isResource = true) :
    x.Takes (.intrinsic i (texture :: sampler :: coordinates :: rest) ty) n := by
  obtain ⟨kind, size, hkind, hsize, hcoordinates⟩ := h.texture
  have hthrough : texture.SampledThrough sampler := by
    refine ⟨⟨kind, hkind, ?_⟩, h.sampler⟩
    rw [← kind.isSome_sampleDimension?, hsize]
    rfl
  match n with
  | 0 =>
    cases hx
    exact .texture hi hthrough
  | 1 =>
    cases hx
    exact .sampler hi hthrough
  | 2 =>
    cases hx
    rw [hcoordinates] at hr
    cases hr
  | n + 3 =>
    have hvalue : x.IsValue := hrest x (List.mem_of_getElem? hx)
    cases hvalue.symm.trans hr

/-- A list of three and more images is that of three and more elements. -/
theorem exists_three_of_map_eq {α β : Type} {f : α → β} {l : List α} {a b c : β} {rest : List β}
    (h : l.map f = a :: b :: c :: rest) :
    ∃ x y z xs, l = x :: y :: z :: xs ∧ f x = a ∧ f y = b ∧ f z = c ∧ xs.map f = rest := by
  match l, h with
  | x :: y :: z :: xs, h =>
    simp only [List.map_cons, List.cons.injEq] at h
    exact ⟨x, y, z, xs, rfl, h⟩

theorem Expr.takes_of_accepts {i : Intrinsic} {args : List Expr} {ty : Ty}
    (h : i.Accepts (args.map Expr.ty)) {n : Nat} {x : Expr} (hx : args[n]? = some x)
    (hr : x.ty.isResource = true) : x.Takes (.intrinsic i args ty) n := by
  generalize htys : args.map Expr.ty = tys at h
  cases h with
  | sample hs =>
    obtain ⟨texture, sampler, coordinates, rest, rfl, rfl, rfl, rfl, hrest⟩ :=
      exists_three_of_map_eq htys
    cases List.map_eq_nil_iff.1 hrest
    exact takes_of_samples (.inl rfl) hs (List.forall_mem_nil _) hx hr
  | sampleLevel hs =>
    obtain ⟨texture, sampler, coordinates, rest, rfl, rfl, rfl, rfl, hrest⟩ :=
      exists_three_of_map_eq htys
    refine takes_of_samples (.inr rfl) hs (fun c hc => ?_) hx hr
    have hlevel := hrest ▸ List.mem_map_of_mem (f := Expr.ty) hc
    rw [IsValue, List.mem_singleton.1 hlevel]
    rfl
  | load htexture hcoordinates hsample =>
    obtain ⟨texture, coordinates, sample, rest, rfl, rfl, rfl, rfl, hrest⟩ :=
      exists_three_of_map_eq htys
    cases List.map_eq_nil_iff.1 hrest
    match n with
    | 0 =>
      cases hx
      exact .loaded htexture
    | 1 =>
      cases hx
      cases (Ty.isResource_of_isIntegerPair hcoordinates).symm.trans hr
    | 2 =>
      cases hx
      cases (Ty.isResource_of_isIntegerScalar hsample).symm.trans hr
  | values _ _ hvalues =>
    subst htys
    cases (hvalues _ (List.mem_map_of_mem (List.mem_of_getElem? hx))).symm.trans hr

/-- A part of a well-typed expression that is a resource is taken as one. -/
theorem Expr.Typed.takes {e : Expr} (h : e.Typed p) {n : Nat} {x : Expr}
    (hx : e.children[n]? = some x) (hr : x.ty.isResource = true) : x.Takes e n := by
  have hmem := List.mem_of_getElem? hx
  have hvalues : (∀ c ∈ e.children, c.IsValue) → x.Takes e n := fun hvalues => by
    have hvalue : x.ty.isResource = false := hvalues x hmem
    cases hvalue.symm.trans hr
  cases h with
  | literal => cases hx
  | var => cases hx
  | uniform => cases hx
  | resource => cases hx
  | field hty => exact hvalues (by simp [children, IsValue, hty, Ty.isResource, Ty.resource?])
  | swizzle hty => exact hvalues (by simp [children, IsValue, hty, Ty.isResource, Ty.resource?])
  | @index base position ty helement hint =>
    rcases n with _ | _ | n
    · cases hx
      generalize hty : x.ty = bty at helement
      cases helement with
      | buffer => exact .buffer (by rw [hty]; rfl)
      | _ => rw [hty] at hr; cases hr
    · cases hx
      cases (Ty.isResource_of_isIntegerScalar hint).symm.trans hr
    · cases hx
  | unary hvalue => exact hvalues (by simpa [children] using hvalue)
  | binary hl hr => exact hvalues (by simpa [children] using ⟨hl, hr⟩)
  | conditional hc hy hn =>
    refine hvalues ?_
    simp only [children, List.forall_mem_cons, List.not_mem_nil, false_implies, implies_true,
      and_true]
    exact ⟨by rw [IsValue, hc]; rfl, hy, hn⟩
  | call _ hargs =>
    refine hvalues fun c hc => ?_
    obtain ⟨param, -, hden⟩ := forall₂_of_mem_right hargs hc
    exact hden.plain.isResource_eq
  | intrinsic haccepts => exact takes_of_accepts haccepts hx hr
  | construct hcomposes =>
    exact hvalues fun c hc => hcomposes.isResource (List.mem_map_of_mem hc)
  | cast hconverts =>
    refine hvalues ?_
    simp only [children, List.mem_singleton, forall_eq]
    generalize hty : Expr.ty _ = source at hconverts
    cases hconverts <;> simp [IsValue, hty, Ty.isResource, Ty.resource?]

/-- What stands in a well-typed statement itself is a value. -/
theorem Stmt.Typed.isValue {result : Ty} (hresult : result.Plain p) {s : Stmt}
    (h : s.Typed p result) {e : Expr} (he : s.Holds e) : e.IsValue := by
  have hbool : e.ty = .bool → e.IsValue := fun hty => by rw [Expr.IsValue, hty]; rfl
  cases h with
  | declare => cases he
  | declareWith hty _ hinit =>
    cases he
    rw [Expr.IsValue, hinit]
    exact hty.isResource_eq
  | assign htarget hvalue =>
    cases he with
    | target => exact htarget
    | value => rwa [Expr.IsValue, hvalue]
  | compound _ htarget hvalue =>
    cases he with
    | target => exact htarget
    | value => exact hvalue
  | expr hvalue => cases he; exact hvalue
  | branch hc => cases he; exact hbool hc
  | forLoop _ hc => cases he; exact hbool (hc e rfl)
  | whileLoop hc => cases he; exact hbool hc
  | doLoop hc => cases he; exact hbool hc
  | switch hint => cases he; exact Ty.isResource_of_isIntegerScalar hint
  | retNone => cases he
  | ret hty =>
    cases he
    rw [Expr.IsValue, hty]
    exact hresult.isResource_eq
  | leave => cases he
  | next => cases he
  | block => cases he

end Rules

end Core

open Shading.Core (Expr Stmt)

/-- Resources stand in a function only where they are taken. -/
structure Function.PlacesResources (p : Program) (f : Function) : Prop where
  /-- What has the type of a resource is a reference to one.  It is declared, and it is no
  uniform buffer. -/
  reference : ∀ e : Expr, e.OccursIn f.body → e.ty.isResource = true →
    ∃ name r, e = .resource name r.toTy ∧ p.HasResource name r ∧ r.kind ≠ .uniformBuffer
  /-- Statements are made of values. -/
  values : ∀ s : Stmt, s.OccursIn f.body → ∀ e, s.Holds e → e.IsValue
  /-- Parts of expressions are values or resources that are taken. -/
  parts : ∀ e : Expr, e.OccursIn f.body → ∀ n (x : Expr), e.children[n]? = some x →
    x.IsValue ∨ x.Takes e n

namespace Program

variable {p : Program} {d : FunctionDecl} {f : Function}

/-- Elaboration places resources only where they are taken. -/
theorem placesResources_of_elaborateFunction (h : p.elaborateFunction d = .ok f) :
    f.PlacesResources p where
  reference e he hr := by
    obtain ⟨s, rfl, -, hbody⟩ := exists_scope_of_elaborateFunction h
    have hmade := Scope.made_of_occursIn hbody he
    obtain ⟨name, r, rfl, hres⟩ := hmade.exists_resource hr
    refine ⟨name, r, rfl, hres, fun hkind => ?_⟩
    generalize hty : r.toTy = ty at hr hmade
    cases hmade.typed with
    | uniform hres' _ helement =>
      cases (hres'.declares.element helement).1.isResource_eq.symm.trans hr
    | resource hres' hne =>
      obtain rfl := hres.unique hres'
      exact hne hkind
  values s hs e he := (typed_stmt_of_elaborateFunction h hs).isValue
    (plain_result_of_elaborateFunction h).1 he
  parts e he n x hx := by
    cases hr : x.ty.isResource with
    | false => exact .inl hr
    | true => exact .inr ((typed_expr_of_elaborateFunction h he).1.takes hx hr)

end Program

end Shading
