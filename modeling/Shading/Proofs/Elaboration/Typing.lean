import Shading.Proofs.Elaboration.Stmt

/-!
# Typing of elaborated code

The typing rules of core code are local: `Expr.Typed` and `Stmt.Typed` relate a node
to the types of its parts.  A body is well typed when each statement and each
expression in it, at any depth, keeps its rule and every type is well formed
(`WellTyped`).  Elaboration yields well-typed functions (`wellTyped_of_elaborateFunction`).

Rules refer to the program for what is declared: a call gives its function the
types that the parameters denote, a field has the type its declaration denotes, and
a resource the type it is declared with.
-/

namespace Shading

/-! ## Rules for types -/

/-- An indexed value of a type has elements of another. -/
inductive Ty.Element : Ty → Ty → Prop where
  | array {element length} : Element (.array element length) element
  | vector {kind size} : Element (.vector kind size) (.scalar kind)
  | matrix : Element .matrix .float4
  | buffer {element access} : Element (.resourceOf .structuredBuffer element access) element

/-- Values of some types make up a value of a type. -/
inductive Ty.Composes : List Ty → Ty → Prop where
  | vector {args kind size} : (∀ a ∈ args, a.isInterface = true) →
      Core.givenComponents args = size.toNat → Composes args (.vector kind size)
  /-- One component fills a vector. -/
  | fill {a kind size} : a.components? = some 1 → Composes [a] (.vector kind size)
  | matrix {args} : (∀ a ∈ args, a.isInterface = true) →
      Core.givenComponents args = 16 → Composes args .matrix

/-- A value of a type converts to another type. -/
inductive Ty.Converts : Ty → Ty → Prop where
  | scalar {a b} : Converts (.scalar a) (.scalar b)
  | vector {a b size} : Converts (.vector a size) (.vector b size)

/-- A texture is sampled through a sampler at coordinates. -/
structure Ty.Samples (texture sampler coordinates : Ty) : Prop where
  texture : ∃ kind size, texture.resourceKind? = some kind ∧
    Core.sampleDimension? kind = some size ∧ coordinates = .vector .float size
  sampler : sampler.resourceKind? = some .sampler

/-- An intrinsic takes arguments of some types. -/
inductive Intrinsic.Accepts : Intrinsic → List Ty → Prop where
  | sample {texture sampler coordinates} : texture.Samples sampler coordinates →
      Accepts .sample [texture, sampler, coordinates]
  | sampleLevel {texture sampler coordinates} : texture.Samples sampler coordinates →
      Accepts .sampleLevel [texture, sampler, coordinates, .float]
  | load {texture coordinates sample} : texture.resourceKind? = some .texture2DMS →
      coordinates.isIntegerPair = true → sample.isIntegerScalar = true →
      Accepts .load [texture, coordinates, sample]
  | values {i args} : i.isTextureOperation = false → args.length = i.arity →
      (∀ a ∈ args, a.isResource = false) → Accepts i args

/-! ## Rules for expressions -/

namespace Core

/-- An expression that is a value: no resource stands for it. -/
def Expr.IsValue (e : Expr) : Prop := e.ty.isResource = false

/-- The typing rule of an expression, over the types of its parts. -/
inductive Expr.Typed (p : Program) : Expr → Prop where
  | literal {value} : (∀ x, value = .float x → x.isFinite = true) →
      Typed p (.literal value value.ty)
  | var {name ty} : ty.Plain p → Typed p (.var name ty)
  | uniform {name r element} : p.HasResource name r → r.kind = .uniformBuffer →
      r.element = some element → Typed p (.resource name element)
  | resource {name r} : p.HasResource name r → r.kind ≠ .uniformBuffer →
      Typed p (.resource name r.toTy)
  | field {base member ty struct d field} : base.ty = .struct struct →
      p.struct? struct = some d → d.field? member = some field → p.Denotes field.ty ty →
      Typed p (.field base member ty)
  | swizzle {base components kind size} : base.ty = .vector kind size → components ≠ [] →
      components.length ≤ 4 → (∀ c ∈ components, c < size) →
      Typed p (.swizzle base components (Scope.swizzleTy kind components))
  | index {base position ty} : base.ty.Element ty → position.ty.isIntegerScalar = true →
      Typed p (.index base position ty)
  | unary {op operand ty} : operand.IsValue → ty.Plain p → Typed p (.unary op operand ty)
  | binary {op lhs rhs ty} : lhs.IsValue → rhs.IsValue →
      (op = .rem → lhs.ty.isInteger = true ∧ rhs.ty.isInteger = true) → ty.Plain p →
      Typed p (.binary op lhs rhs ty)
  | conditional {condition yes no ty} : condition.ty = .bool → yes.IsValue → no.IsValue →
      ty.Plain p → Typed p (.conditional condition yes no ty)
  | call {function args ty d} : p.function? function = some d →
      List.Forall₂ (fun param (arg : Expr) => p.Denotes param.ty arg.ty) d.params args →
      ty.Plain p → Typed p (.call function args ty)
  | intrinsic {i args ty} : i.Accepts (args.map Expr.ty) → (i = .barrier → ty = .void) →
      ty.Plain p → Typed p (.intrinsic i args ty)
  | construct {args ty} : Ty.Composes (args.map Expr.ty) ty → Typed p (.construct args ty)
  | cast {operand ty} : operand.ty.Converts ty → Typed p (.cast operand ty)

/-! ## Rules for statements -/

/-- The typing rule of a statement in a function with a result type. -/
inductive Stmt.Typed (p : Program) (result : Ty) : Stmt → Prop where
  | declare {name ty} : ty.Plain p → ty.isVoid = false → Typed p result (.declare name ty none)
  | declareWith {name ty init} : ty.Plain p → ty.isVoid = false → init.ty = ty →
      Typed p result (.declare name ty (some init))
  | assign {target value} : target.IsValue → value.ty = target.ty →
      Typed p result (.assign target .assign value)
  | compound {target op value} : op ≠ .assign → target.IsValue → value.IsValue →
      (op = .rem → target.ty.isInteger = true ∧ value.ty.isInteger = true) →
      Typed p result (.assign target op value)
  | expr {value} : value.IsValue → Typed p result (.expr value)
  | branch {condition yes no} : condition.ty = .bool → Typed p result (.branch condition yes no)
  | forLoop {init condition step body} : (∀ s ∈ init, s.isSimple = true) →
      (∀ c, condition = some c → c.ty = .bool) → (∀ s ∈ step, s.isStep = true) →
      Typed p result (.forLoop init condition step body)
  | whileLoop {condition body} : condition.ty = .bool → Typed p result (.whileLoop condition body)
  | doLoop {body condition} : condition.ty = .bool → Typed p result (.doLoop body condition)
  | switch {selector cases default} : selector.ty.isIntegerScalar = true →
      (∀ c ∈ cases, ∀ l ∈ c.labels, l.isInteger = true) →
      Typed p result (.switch selector cases default)
  | retNone : result.isVoid = true → Typed p result (.ret none)
  | ret {value} : value.ty = result → Typed p result (.ret (some value))
  | leave : Typed p result .leave
  | next : Typed p result .next
  | block {body} : Typed p result (.block body)

end Core

/-- Every statement and every expression in a function keeps its rule, and every type is
well formed. -/
structure Function.WellTyped (p : Program) (f : Function) : Prop where
  params : ∀ param ∈ f.params, param.ty.Plain p ∧ param.ty.isVoid = false ∧ param.ty.isArray = false
  result : f.result.Plain p ∧ f.result.isArray = false
  stmts : ∀ t : Core.Stmt, t.OccursIn f.body → t.Typed p f.result
  exprs : ∀ e : Core.Expr, e.OccursIn f.body → e.Typed p ∧ e.ty.WellFormed p

/-! ## Checks and rules -/

section Checks

variable {p : Program}

theorem Ty.element_of_elementTy? {base ty : Ty} (h : Core.elementTy? base = .ok ty) :
    base.Element ty := by
  simp only [Core.elementTy?] at h
  split at h
  · cases h; exact .array
  · cases h; exact .vector
  · cases h; exact .matrix
  · split at h
    · next hr =>
      cases h
      rw [← Ty.toTy_of_resource? hr]
      exact .buffer
    · cases h
    · cases h

/-- The elements of a value of a well-formed type are of a plain type. -/
theorem Ty.Element.plain {base ty : Ty} (h : base.Element ty) (hb : base.WellFormed p) :
    ty.Plain p := by
  cases h with
  | array => cases hb with | plain hb => cases hb with | array he _ _ _ => exact he
  | vector => exact .scalar
  | matrix => exact .vector (by decide) (by decide)
  | buffer =>
    cases hb with
    | plain hb => cases hb
    | buffer _ he _ _ => exact he

theorem Ty.composes_of_constructFault? {ty : Ty} {args : List Ty}
    (h : Core.constructFault? ty args = none) : Ty.Composes args ty := by
  have hcomponents : ∀ {l : List Ty}, l.find? (·.components?.isNone) = none →
      ∀ a ∈ l, a.isInterface = true := by
    intro l hl a ha
    have := List.find?_eq_none.1 hl a ha
    cases a <;> simp_all [Ty.components?, Ty.isInterface]
  simp only [Core.constructFault?] at h
  cases ty with
  | vector kind size =>
    simp only [Ty.isMatrix, Bool.not_false, Bool.and_true] at h
    split at h
    · cases h
    · next hfind =>
      split at h
      · next hcount =>
        simp only [Bool.or_eq_true, decide_eq_true_eq, Bool.and_eq_true] at hcount
        rcases hcount with hsum | ⟨hone, hsum⟩
        · exact .vector (hcomponents hfind) hsum
        · obtain ⟨a, rfl⟩ := List.length_eq_one_iff.1 hone
          refine .fill ?_
          cases hc : a.components? with
          | none => simp [hc] at hfind
          | some n => simpa [Core.givenComponents, hc] using hsum
      · cases h
  | matrix =>
    simp only [Ty.isMatrix, Bool.not_true, Bool.and_false, Bool.or_false] at h
    split at h
    · cases h
    · next hfind =>
      split at h
      · next hcount => exact .matrix (hcomponents hfind) (by simpa using hcount)
      · cases h
  | _ => cases h

theorem Ty.converts_of_castFault? {source target : Ty}
    (h : Core.castFault? source target = none) : source.Converts target := by
  simp only [Core.castFault?] at h
  split at h
  · exact .scalar
  · split at h
    · next hsize => exact hsize ▸ .vector
    · cases h
  · cases h

theorem Ty.samples_of_sampleFault? {i : Intrinsic} {texture sampler coordinates : Ty}
    (h : Core.sampleFault? i texture sampler coordinates = none) :
    texture.Samples sampler coordinates := by
  rw [Core.sampleFault?] at h
  split at h
  · cases h
  · next size hsize =>
    obtain ⟨kind, hkind, hsize⟩ := Option.bind_eq_some_iff.1 hsize
    split at h
    · cases h
    · next hsampler =>
      split at h
      · cases h
      · next hcoordinates =>
        exact ⟨⟨kind, size, hkind, hsize, not_not.1 hcoordinates⟩, not_not.1 hsampler⟩

/-- Arguments that pass the checks of an intrinsic are accepted by it. -/
theorem Intrinsic.accepts_of_intrinsicFault? {i : Intrinsic} {args : List Core.Expr}
    (hl : args.length = i.arity) (h : Core.intrinsicFault? i args = none) :
    i.Accepts (args.map Core.Expr.ty) := by
  simp only [Core.intrinsicFault?] at h
  split at h
  · exact .sample (Ty.samples_of_sampleFault? h)
  · next texture sampler coordinates level =>
    obtain ⟨hs, hlevel⟩ := Option.or_eq_none_iff.1 h
    have hfloat : level.ty = .float := by simpa using hlevel
    simp only [List.map_cons, List.map_nil, hfloat]
    exact .sampleLevel (Ty.samples_of_sampleFault? hs)
  · split at h
    · cases h
    · next ht =>
      split at h
      · cases h
      · next hc =>
        split at h
        · cases h
        · next hs => exact .load (not_not.1 ht) (by simpa using hc) (by simpa using hs)
  · next hsample hlevel hload =>
    refine .values ?_ (by simpa using hl) ?_
    · -- A texture operation with all its arguments is in one of the cases before.
      cases i with
      | sample =>
        obtain ⟨a, b, c, rfl⟩ := List.length_eq_three.1 hl
        exact (hsample _ _ _ rfl rfl).elim
      | sampleLevel =>
        obtain ⟨a, rest, rfl⟩ := List.exists_cons_of_length_eq_add_one hl
        obtain ⟨b, c, d, rfl⟩ := List.length_eq_three.1 (Nat.succ.inj hl)
        exact (hlevel _ _ _ _ rfl rfl).elim
      | load =>
        obtain ⟨a, b, c, rfl⟩ := List.length_eq_three.1 hl
        exact (hload _ _ _ rfl rfl).elim
      | _ => rfl
    · intro ty hty
      obtain ⟨a, ha, rfl⟩ := List.mem_map.1 hty
      have := List.find?_eq_none.1 (Option.map_eq_none_iff.1 h) a ha
      simpa using this

end Checks

/-! ## Components -/

theorem Core.lt_of_swizzlePositions? {alphabet : List Char} {size : Nat} {letters : List Char}
    {components : List UInt8} (h : swizzlePositions? alphabet size letters = some components) :
    ∀ c ∈ components, c.toNat < size := by
  induction letters generalizing components with
  | nil => simp_all [swizzlePositions?]
  | cons letter rest ih =>
    simp only [swizzlePositions?] at h
    split at h
    · cases h
    · next i _ =>
      split at h
      · next hi =>
        obtain ⟨tail, ht, rfl⟩ := Option.map_eq_some_iff.1 h
        rw [List.forall_mem_cons]
        refine ⟨?_, ih ht⟩
        rw [UInt8.toNat_ofNat']
        exact Nat.lt_of_le_of_lt (Nat.mod_le i _) hi
      · cases h

/-- A swizzle picks components that a vector of the size has. -/
theorem Core.lt_of_swizzle? {member : String} {size : Nat} {components : List UInt8}
    (h : swizzle? member size = some components) : ∀ c ∈ components, c.toNat < size := by
  unfold swizzle? at h
  simp only at h
  split at h
  · cases h
  · obtain ⟨alphabet, _, ha⟩ := List.exists_of_findSome?_eq_some h
    exact lt_of_swizzlePositions? ha

theorem Scope.plain_swizzleTy {p : Program} {kind : ScalarKind} {components : List UInt8}
    (hpos : 0 < components.length) (hle : components.length ≤ 4) :
    (swizzleTy kind components).Plain p := by
  rw [swizzleTy]
  split
  · exact .scalar
  · next hne =>
    have hsize : (UInt8.ofNat components.length).toNat = components.length := by
      rw [UInt8.toNat_ofNat', Nat.mod_eq_of_lt (by omega)]
    refine .vector ?_ ?_ <;> rw [UInt8.le_iff_toNat_le, hsize]
    · show 2 ≤ components.length
      omega
    · exact hle

/-! ## Elaborated code -/

namespace Scope

open Shading.Core (Expr)

variable {s : Scope}

theorem Writes.plain {written : Option Surface.TypeExpr} {ty : Ty} (h : s.Writes written ty) :
    ty.Plain s.program := by
  obtain ⟨w, -, hw⟩ := h
  exact hw.plain

/-- The type of an intrinsic call is void for a barrier, and written otherwise. -/
theorem plain_of_intrinsicTy {i : Intrinsic} {written : Option Surface.TypeExpr} {ty : Ty}
    (h : if i = .barrier then ty = .void else s.Writes written ty) :
    ty.Plain s.program ∧ (i = .barrier → ty = .void) := by
  split at h
  · next hb => exact ⟨h ▸ .void, fun _ => h⟩
  · next hb => exact ⟨h.plain, fun hi => absurd hi hb⟩

/-- Everything that elaboration makes has a well-formed type. -/
theorem Made.wellFormed {e : Expr} (h : s.Made e) : e.ty.WellFormed s.program := by
  induction e using Expr.induct with
  | h e ih =>
    cases h with
    | source h =>
      cases elaborated_of_operand h with
      | @literal value => cases value <;> exact .plain .scalar
      | var hty => exact .plain hty.plain
      | uniform hr _ he => exact .plain (hr.declares.element he).1
      | resource hr => exact hr.declares.wellFormed
      | field _ _ _ _ hden => exact .plain hden.plain
      | swizzle _ _ hcomponents =>
        obtain ⟨hpos, hle⟩ := Core.length_of_swizzle? hcomponents
        exact .plain (plain_swizzleTy hpos hle)
      | matrixElement => exact .plain .scalar
      | index hb _ _ hty =>
        have hbase := ih _ (by simp [Expr.children]) (.source hb)
        exact .plain ((Ty.element_of_elementTy? hty).plain hbase)
      | unary _ _ hty => exact .plain hty.plain
      | binary _ _ _ hty => exact .plain hty.plain
      | conditional _ _ _ hty => exact .plain hty.plain
      | call _ _ _ _ hty => exact .plain hty.plain
      | intrinsic _ _ _ _ hty => exact .plain (plain_of_intrinsicTy hty).1
      | construct hty => exact .plain hty.plain
      | cast hty => exact .plain hty.plain
      | enumValue => exact .plain .scalar
    | row => exact .plain (.vector (by decide) (by decide))
    | position => exact .plain .scalar
    | product ht =>
      have htarget := ih _ (.head _) ht.made
      exact htarget

/-- The type of a value is plain. -/
theorem Value.plain {e : Surface.Expr} {c : Expr} (h : s.Value e c) : c.ty.Plain s.program :=
  h.made.wellFormed.plain_of_isResource h.2

/-- What is made from one surface expression keeps its typing rule. -/
theorem Elaborated.typed {e : Surface.Expr} {c : Expr} (h : s.Elaborated e c) :
    c.Typed s.program := by
  cases h with
  | @literal value _ hf =>
    refine .literal fun x hx => ?_
    subst hx
    simpa [Core.Literal.fault?] using hf
  | var hty => exact .var hty.plain
  | uniform hr hk he => exact .uniform hr hk he
  | resource hr hk => exact .resource hr hk
  | field _ hty hd hfield hden _ => exact .field hty hd hfield hden
  | swizzle _ hty hcomponents =>
    obtain ⟨hpos, hle⟩ := Core.length_of_swizzle? hcomponents
    refine .swizzle hty (List.length_pos_iff.1 hpos) hle fun c hc => ?_
    exact UInt8.lt_iff_toNat_lt.2 (Core.lt_of_swizzle? hcomponents c hc)
  | matrixElement => exact .index .vector rfl
  | index _ _ hint hty => exact .index (Ty.element_of_elementTy? hty) hint
  | unary hc _ hty => exact .unary hc.2 hty.plain
  | binary hl hr hf hty =>
    refine .binary hl.2 hr.2 (fun hop => ?_) hty.plain
    simpa [Core.binaryFault?, hop] using hf
  | conditional hc hy hn hty => exact .conditional hc.2 hy.2 hn.2 hty.plain
  | call hd _ _ hps hty => exact .call hd (hps.imp fun _ _ hp => hp.denotes) hty.plain
  | intrinsic _ hl hcs hf hty =>
    obtain ⟨hplain, hbarrier⟩ := plain_of_intrinsicTy hty
    exact .intrinsic (Intrinsic.accepts_of_intrinsicFault? (hcs.length_eq ▸ hl) hf) hbarrier hplain
  | construct _ _ hf => exact .construct (Ty.composes_of_constructFault? hf)
  | cast _ _ hf => exact .cast (Ty.converts_of_castFault? hf)
  | enumValue => exact @Expr.Typed.literal _ (.int _) (by simp)

/-- Everything that elaboration makes keeps its typing rule. -/
theorem Made.typed {e : Expr} (h : s.Made e) : e.Typed s.program := by
  cases h with
  | source h => exact (elaborated_of_operand h).typed
  | row _ hty => exact .index (hty ▸ .matrix) rfl
  | @position value => exact @Expr.Typed.literal _ (.int value) (by simp)
  | product ht hv _ => exact .binary ht.2 hv.2 (by simp) ht.plain

theorem ElaboratedStmt.typed {a : Surface.Stmt} {t : Core.Stmt} (h : s.ElaboratedStmt a t) :
    t.Typed s.program s.result := by
  cases h with
  | declare hden hv hc =>
    cases hc with
    | none => exact .declare hden.plain hv
    | some hc => exact .declareWith hden.plain hv hc.2
  | @assign _ op _ _ _ ht _ hv hf _ =>
    rw [Core.assignFault?] at hf
    split at hf
    · cases hf
    · next hrem =>
      split at hf
      · cases hf
      · next hassign =>
        by_cases hop : op = .assign
        · subst hop
          exact .assign ht.2 (by simpa using hassign)
        · exact .compound hop ht.2 hv.2 fun h => by simpa [h] using hrem
  | product ht => exact .assign ht.2 rfl
  | expr hc => exact .expr hc.2
  | branch hc => exact .branch hc.2
  | forLoop _ hi hc _ ht _ =>
    refine .forLoop hi (fun c h => ?_) ht
    subst h
    cases hc with | some hc => exact hc.2
  | whileLoop hc => exact .whileLoop hc.2
  | doLoop _ hc => exact .doLoop hc.2
  | switch _ hint hcs _ =>
    refine .switch hint fun c hc l hl => ?_
    obtain ⟨_, -, hcase⟩ := forall₂_of_mem_right hcs hc
    cases hcase with
    | mk hls _ =>
      obtain ⟨_, -, hlabel⟩ := forall₂_of_mem_right hls hl
      exact hlabel.2
  | retNone hv => exact .retNone hv
  | ret _ hty => exact .ret hty
  | leave => exact .leave
  | next => exact .next
  | block => exact .block

end Scope

/-! ## Elaborated functions -/

namespace Program

variable {p : Program}

theorem elaborateParam_eq_ok {symbol : String} {d : ParamDecl} {param : Parameter}
    (h : p.elaborateParam symbol d = .ok param) :
    p.Denotes d.ty param.ty ∧ param.ty.isVoid = false ∧ param.ty.isArray = false ∧
      param.name = d.name ∧ param.passing = d.passing ∧ param.semantic = d.semantic := by
  simp only [elaborateParam, bind_eq_ok, elaborateValueType_eq_ok] at h
  obtain ⟨ty, ⟨hden, hv⟩, h⟩ := h
  split at h
  · exact absurd h fault_ne_ok
  · next ha =>
    obtain rfl := pure_eq_ok.1 h
    exact ⟨hden, hv, by simpa using ha, rfl, rfl, rfl⟩

theorem elaborateResult_eq_ok {symbol : String} {written : Surface.TypeExpr} {ty : Ty}
    (h : p.elaborateResult symbol written = .ok ty) :
    p.Denotes written ty ∧ ty.isArray = false := by
  simp only [elaborateResult, bind_eq_ok, elaborateType_eq_ok] at h
  obtain ⟨t, hden, h⟩ := h
  split at h
  · exact absurd h fault_ne_ok
  · next ha =>
    obtain rfl := pure_eq_ok.1 h
    exact ⟨hden, by simpa using ha⟩

variable {d : FunctionDecl} {f : Function}

/-- The body of an elaborated function is elaborated for the function's result. -/
theorem exists_scope_of_elaborateFunction (h : p.elaborateFunction d = .ok f) :
    ∃ s : Scope, s.program = p ∧ s.result = f.result ∧ s.stmts d.body = .ok f.body := by
  obtain ⟨params, result, body, -, -, hbody, rfl⟩ := elaborateFunction_eq_ok h
  exact ⟨_, rfl, rfl, hbody⟩

theorem plain_param_of_elaborateFunction (h : p.elaborateFunction d = .ok f) {param : Parameter}
    (hmem : param ∈ f.params) :
    param.ty.Plain p ∧ param.ty.isVoid = false ∧ param.ty.isArray = false := by
  obtain ⟨params, result, body, hparams, -, -, rfl⟩ := elaborateFunction_eq_ok h
  obtain ⟨d, -, hd⟩ := forall₂_of_mem_right (mapM_eq_ok_iff.1 hparams) hmem
  obtain ⟨hden, hv, ha, -⟩ := elaborateParam_eq_ok hd
  exact ⟨hden.plain, hv, ha⟩

theorem plain_result_of_elaborateFunction (h : p.elaborateFunction d = .ok f) :
    f.result.Plain p ∧ f.result.isArray = false := by
  obtain ⟨params, result, body, -, hresult, -, rfl⟩ := elaborateFunction_eq_ok h
  obtain ⟨hden, ha⟩ := elaborateResult_eq_ok hresult
  exact ⟨hden.plain, ha⟩

/-- Every statement of an elaborated function keeps its typing rule. -/
theorem typed_stmt_of_elaborateFunction (h : p.elaborateFunction d = .ok f) {t : Core.Stmt}
    (ht : t.OccursIn f.body) : t.Typed p f.result := by
  obtain ⟨s, rfl, hresult, hbody⟩ := exists_scope_of_elaborateFunction h
  obtain ⟨a, ha⟩ := Scope.exists_elaborated_of_occursIn hbody ht
  exact hresult ▸ ha.typed

/-- Every expression of an elaborated function keeps its typing rule and has a
well-formed type. -/
theorem typed_expr_of_elaborateFunction (h : p.elaborateFunction d = .ok f) {e : Core.Expr}
    (he : e.OccursIn f.body) : e.Typed p ∧ e.ty.WellFormed p := by
  obtain ⟨s, rfl, -, hbody⟩ := exists_scope_of_elaborateFunction h
  have hmade := Scope.made_of_occursIn hbody he
  exact ⟨hmade.typed, hmade.wellFormed⟩

/-- Elaboration makes well-typed functions. -/
theorem wellTyped_of_elaborateFunction (h : p.elaborateFunction d = .ok f) : f.WellTyped p where
  params _ := plain_param_of_elaborateFunction h
  result := plain_result_of_elaborateFunction h
  stmts _ := typed_stmt_of_elaborateFunction h
  exprs _ := typed_expr_of_elaborateFunction h

theorem wellTyped_sample_fragment :
    ∃ f, sample.elaborateFunction sample.fragment = .ok f ∧ f.WellTyped sample := by
  have h : sample.elaborateFunction sample.fragment = .ok _ := rfl
  exact ⟨_, h, wellTyped_of_elaborateFunction h⟩

end Program

end Shading
