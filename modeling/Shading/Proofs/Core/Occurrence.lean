import Shading.Proofs.Core.Effect
import Shading.Core.Walk

/-!
# Occurrences

`Expr.Within` and `Stmt.Within` say that a piece of core code occurs in another,
position by position: one constructor for each place where a piece can stand.
The walks list exactly what occurs (`Expr.mem_walk_iff`, `Stmt.mem_walk_iff`,
`mem_exprsOf_iff`), so nothing that is said of every piece of a body skips a
form of statement or expression.

The functions a body calls are among its effects.  `mem_calleesOf_iff` says that they are
the names of the calls that occur in it.
-/

namespace Shading.Core

/-! ## Expressions -/

/-- An expression occurs in another, at any depth. -/
inductive Expr.Within (x : Expr) : Expr → Prop where
  | self : Within x x
  | fieldBase {base field ty} : Within x base → Within x (.field base field ty)
  | swizzleBase {base components ty} : Within x base → Within x (.swizzle base components ty)
  | indexBase {base position ty} : Within x base → Within x (.index base position ty)
  | indexPosition {base position ty} : Within x position → Within x (.index base position ty)
  | unary {op operand ty} : Within x operand → Within x (.unary op operand ty)
  | binaryLeft {op lhs rhs ty} : Within x lhs → Within x (.binary op lhs rhs ty)
  | binaryRight {op lhs rhs ty} : Within x rhs → Within x (.binary op lhs rhs ty)
  | condition {condition yes no ty} :
      Within x condition → Within x (.conditional condition yes no ty)
  | yes {condition yes no ty} : Within x yes → Within x (.conditional condition yes no ty)
  | no {condition yes no ty} : Within x no → Within x (.conditional condition yes no ty)
  | callArg {function args arg ty} :
      arg ∈ args → Within x arg → Within x (.call function args ty)
  | intrinsicArg {intrinsic args arg ty} :
      arg ∈ args → Within x arg → Within x (.intrinsic intrinsic args ty)
  | component {args arg ty} : arg ∈ args → Within x arg → Within x (.construct args ty)
  | cast {operand ty} : Within x operand → Within x (.cast operand ty)

theorem Expr.mem_children_index {x base position : Expr} {ty : Ty} :
    x ∈ (index base position ty).children ↔ x = base ∨ x = position := by simp [children]

theorem Expr.mem_children_binary {x lhs rhs : Expr} {op : BinaryOp} {ty : Ty} :
    x ∈ (binary op lhs rhs ty).children ↔ x = lhs ∨ x = rhs := by simp [children]

theorem Expr.mem_children_conditional {x condition yes no : Expr} {ty : Ty} :
    x ∈ (conditional condition yes no ty).children ↔ x = condition ∨ x = yes ∨ x = no := by
  simp [children]

/-- What holds of an expression when it holds of its children holds of every
expression. -/
theorem Expr.induct {P : Expr → Prop} (h : ∀ e : Expr, (∀ c ∈ e.children, P c) → P e)
    (e : Expr) : P e :=
  @Expr.rec P (fun args => ∀ c ∈ args, P c)
    (fun _ _ => h _ (by simp [children]))
    (fun _ _ => h _ (by simp [children]))
    (fun _ _ => h _ (by simp [children]))
    (fun _ _ _ hb => h _ (by simpa [children] using hb))
    (fun _ _ _ hb => h _ (by simpa [children] using hb))
    (fun _ _ _ hb hp => h _ (by simpa [children] using ⟨hb, hp⟩))
    (fun _ _ _ ho => h _ (by simpa [children] using ho))
    (fun _ _ _ _ hl hr => h _ (by simpa [children] using ⟨hl, hr⟩))
    (fun _ _ _ _ hc hy hn => h _ (by simpa [children] using ⟨hc, hy, hn⟩))
    (fun _ _ _ ha => h _ ha)
    (fun _ _ _ ha => h _ ha)
    (fun _ _ ha => h _ ha)
    (fun _ _ ho => h _ (by simpa [children] using ho))
    (by simp)
    (fun _ _ he hrest => List.forall_mem_cons.2 ⟨he, hrest⟩)
    e

/-- What occurs in a child occurs in the expression. -/
theorem Expr.Within.of_child {x c e : Expr} (hc : c ∈ e.children) (h : x.Within c) :
    x.Within e := by
  cases e with
  | literal => simp [children] at hc
  | var => simp [children] at hc
  | resource => simp [children] at hc
  | field => obtain rfl := List.mem_singleton.1 hc; exact .fieldBase h
  | swizzle => obtain rfl := List.mem_singleton.1 hc; exact .swizzleBase h
  | index =>
    rcases Expr.mem_children_index.1 hc with rfl | rfl
    · exact .indexBase h
    · exact .indexPosition h
  | unary => obtain rfl := List.mem_singleton.1 hc; exact .unary h
  | binary =>
    rcases Expr.mem_children_binary.1 hc with rfl | rfl
    · exact .binaryLeft h
    · exact .binaryRight h
  | conditional =>
    rcases Expr.mem_children_conditional.1 hc with rfl | rfl | rfl
    · exact .condition h
    · exact .yes h
    · exact .no h
  | call => exact .callArg hc h
  | intrinsic => exact .intrinsicArg hc h
  | construct => exact .component hc h
  | cast => obtain rfl := List.mem_singleton.1 hc; exact .cast h

theorem Expr.Within.trans {x y e : Expr} (hxy : x.Within y) (h : y.Within e) : x.Within e := by
  induction h with
  | self => exact hxy
  | fieldBase _ ih => exact .fieldBase ih
  | swizzleBase _ ih => exact .swizzleBase ih
  | indexBase _ ih => exact .indexBase ih
  | indexPosition _ ih => exact .indexPosition ih
  | unary _ ih => exact .unary ih
  | binaryLeft _ ih => exact .binaryLeft ih
  | binaryRight _ ih => exact .binaryRight ih
  | condition _ ih => exact .condition ih
  | yes _ ih => exact .yes ih
  | no _ ih => exact .no ih
  | callArg ha _ ih => exact .callArg ha ih
  | intrinsicArg ha _ ih => exact .intrinsicArg ha ih
  | component ha _ ih => exact .component ha ih
  | cast _ ih => exact .cast ih

/-- What is in a walk is the expression, or in the walk of a child. -/
theorem Expr.mem_walk {x e : Expr} : x ∈ e.walk ↔ x = e ∨ ∃ c ∈ e.children, x ∈ c.walk := by
  rw [Expr.walk_eq, List.mem_cons, List.mem_flatMap]

theorem Expr.mem_walk_self (e : Expr) : e ∈ e.walk := Expr.mem_walk.2 (.inl rfl)

theorem Expr.mem_walk_of_child {x c e : Expr} (hc : c ∈ e.children) (h : x ∈ c.walk) :
    x ∈ e.walk := Expr.mem_walk.2 (.inr ⟨c, hc, h⟩)

/-- The walk of an expression lists what occurs in it. -/
theorem Expr.mem_walk_iff {x e : Expr} : x ∈ e.walk ↔ x.Within e := by
  constructor
  · induction e using Expr.induct with
    | h e ih =>
      intro hx
      rcases Expr.mem_walk.1 hx with rfl | ⟨c, hc, hx⟩
      · exact .self
      · exact .of_child hc (ih c hc hx)
  · intro h
    induction h with
    | self => exact Expr.mem_walk_self x
    | callArg ha _ ih => exact Expr.mem_walk_of_child ha ih
    | intrinsicArg ha _ ih => exact Expr.mem_walk_of_child ha ih
    | component ha _ ih => exact Expr.mem_walk_of_child ha ih
    | _ =>
      refine Expr.mem_walk_of_child ?_ ‹x ∈ Expr.walk _›
      simp [children]

/-! ## Statements -/

/-- An expression stands in a statement itself, not in a nested one. -/
inductive Stmt.Holds : Stmt → Expr → Prop where
  | init {name ty e} : Holds (.declare name ty (some e)) e
  | target {target op value} : Holds (.assign target op value) target
  | value {target op value} : Holds (.assign target op value) value
  | expr {e} : Holds (.expr e) e
  | branch {condition yes no} : Holds (.branch condition yes no) condition
  | forLoop {init condition step body} : Holds (.forLoop init (some condition) step body) condition
  | whileLoop {condition body} : Holds (.whileLoop condition body) condition
  | doLoop {condition body} : Holds (.doLoop body condition) condition
  | selector {selector cases default} : Holds (.switch selector cases default) selector
  | ret {e} : Holds (.ret (some e)) e

theorem Stmt.mem_exprs_iff {s : Stmt} {e : Expr} : e ∈ s.exprs ↔ s.Holds e := by
  constructor
  · intro h
    cases s with
    | declare name ty init => obtain rfl := Option.mem_toList.1 h; exact .init
    | assign target op value =>
      simp only [exprs, List.mem_cons, List.not_mem_nil, or_false] at h
      rcases h with rfl | rfl
      · exact .target
      · exact .value
    | expr => obtain rfl := List.mem_singleton.1 h; exact .expr
    | branch => obtain rfl := List.mem_singleton.1 h; exact .branch
    | forLoop => obtain rfl := Option.mem_toList.1 h; exact .forLoop
    | whileLoop => obtain rfl := List.mem_singleton.1 h; exact .whileLoop
    | doLoop => obtain rfl := List.mem_singleton.1 h; exact .doLoop
    | switch => obtain rfl := List.mem_singleton.1 h; exact .selector
    | ret => obtain rfl := Option.mem_toList.1 h; exact .ret
    | leave => simp [exprs] at h
    | next => simp [exprs] at h
    | block => simp [exprs] at h
  · rintro ⟨⟩ <;> simp [exprs]

/-- A statement occurs in another, at any depth. -/
inductive Stmt.Within (x : Stmt) : Stmt → Prop where
  | self : Within x x
  | yes {condition yes no s} : s ∈ yes → Within x s → Within x (.branch condition yes no)
  | no {condition yes no s} : s ∈ no → Within x s → Within x (.branch condition yes (some no))
  | init {init condition step body s} :
      s ∈ init → Within x s → Within x (.forLoop init condition step body)
  | step {init condition step body s} :
      s ∈ step → Within x s → Within x (.forLoop init condition step body)
  | forBody {init condition step body s} :
      s ∈ body → Within x s → Within x (.forLoop init condition step body)
  | whileBody {condition body s} : s ∈ body → Within x s → Within x (.whileLoop condition body)
  | doBody {condition body s} : s ∈ body → Within x s → Within x (.doLoop body condition)
  | case {selector cases default labels body s} :
      .mk labels body ∈ cases → s ∈ body → Within x s → Within x (.switch selector cases default)
  | default {selector cases default s} :
      s ∈ default → Within x s → Within x (.switch selector cases (some default))
  | block {body s} : s ∈ body → Within x s → Within x (.block body)

/-- What holds of a statement when it holds of the statements nested in it holds of
every statement. -/
theorem Stmt.induct {P : Stmt → Prop}
    (h : ∀ s : Stmt, (∀ body ∈ s.bodies, ∀ t ∈ body, P t) → P s) (s : Stmt) : P s :=
  @Stmt.rec P (fun c => ∀ t ∈ c.body, P t)
    (fun body => ∀ t ∈ body, P t)
    (fun body => ∀ b ∈ body.toList, ∀ t ∈ b, P t)
    (fun cases => ∀ c ∈ cases, ∀ t ∈ c.body, P t)
    (fun _ _ _ => h _ (by simp [bodies]))
    (fun _ _ _ => h _ (by simp [bodies]))
    (fun _ => h _ (by simp [bodies]))
    (fun _ _ _ hy hn => h _ (List.forall_mem_cons.2 ⟨hy, hn⟩))
    (fun _ _ _ _ hi hs hb => h _ (by simpa [bodies] using ⟨hi, hs, hb⟩))
    (fun _ _ hb => h _ (by simpa [bodies] using hb))
    (fun _ _ hb => h _ (by simpa [bodies] using hb))
    (fun _ _ _ hc hd => h _ (List.forall_mem_append.2 ⟨by simpa using hc, hd⟩))
    (fun _ => h _ (by simp [bodies]))
    (h _ (by simp [bodies]))
    (h _ (by simp [bodies]))
    (fun _ hb => h _ (by simpa [bodies] using hb))
    (fun _ _ hb => hb)
    (by simp)
    (fun _ _ hs hrest => List.forall_mem_cons.2 ⟨hs, hrest⟩)
    (by simp)
    (fun _ hb => by simpa using hb)
    (by simp)
    (fun _ _ hc hrest => List.forall_mem_cons.2 ⟨hc, hrest⟩)
    s

/-- What occurs in a nested statement occurs in the statement. -/
theorem Stmt.Within.of_body {x t s : Stmt} {body : List Stmt} (hb : body ∈ s.bodies)
    (ht : t ∈ body) (h : x.Within t) : x.Within s := by
  cases s with
  | branch condition yes no =>
    rcases List.mem_cons.1 hb with rfl | hb
    · exact .yes ht h
    · obtain rfl := Option.mem_toList.1 hb; exact .no ht h
  | forLoop =>
    simp only [bodies, List.mem_cons, List.not_mem_nil, or_false] at hb
    rcases hb with rfl | rfl | rfl
    · exact .init ht h
    · exact .step ht h
    · exact .forBody ht h
  | whileLoop => obtain rfl := List.mem_singleton.1 hb; exact .whileBody ht h
  | doLoop => obtain rfl := List.mem_singleton.1 hb; exact .doBody ht h
  | switch =>
    rcases List.mem_append.1 hb with hb | hb
    · obtain ⟨⟨labels, body⟩, hc, rfl⟩ := List.mem_map.1 hb
      exact .case hc ht h
    · obtain rfl := Option.mem_toList.1 hb; exact .default ht h
  | block => obtain rfl := List.mem_singleton.1 hb; exact .block ht h
  | declare => simp [bodies] at hb
  | assign => simp [bodies] at hb
  | expr => simp [bodies] at hb
  | ret => simp [bodies] at hb
  | leave => simp [bodies] at hb
  | next => simp [bodies] at hb

theorem Stmt.Within.trans {x y s : Stmt} (hxy : x.Within y) (h : y.Within s) : x.Within s := by
  induction h with
  | self => exact hxy
  | yes hs _ ih => exact .yes hs ih
  | no hs _ ih => exact .no hs ih
  | init hs _ ih => exact .init hs ih
  | step hs _ ih => exact .step hs ih
  | forBody hs _ ih => exact .forBody hs ih
  | whileBody hs _ ih => exact .whileBody hs ih
  | doBody hs _ ih => exact .doBody hs ih
  | case hc hs _ ih => exact .case hc hs ih
  | default hs _ ih => exact .default hs ih
  | block hs _ ih => exact .block hs ih

theorem Stmt.mem_walkAll {x : Stmt} {body : List Stmt} :
    x ∈ Stmt.walkAll body ↔ ∃ s ∈ body, x ∈ s.walk := by
  rw [Stmt.walkAll_eq_flatMap, List.mem_flatMap]

/-- What is in a walk is the statement, or in the walk of a body. -/
theorem Stmt.mem_walk {x s : Stmt} :
    x ∈ s.walk ↔ x = s ∨ ∃ body ∈ s.bodies, x ∈ Stmt.walkAll body := by
  rw [Stmt.walk_eq, List.mem_cons, List.mem_flatMap]

theorem Stmt.mem_walk_self (s : Stmt) : s ∈ s.walk := Stmt.mem_walk.2 (.inl rfl)

theorem Stmt.mem_walk_of_body {x t s : Stmt} {body : List Stmt} (hb : body ∈ s.bodies)
    (ht : t ∈ body) (h : x ∈ t.walk) : x ∈ s.walk :=
  Stmt.mem_walk.2 (.inr ⟨body, hb, Stmt.mem_walkAll.2 ⟨t, ht, h⟩⟩)

/-- The walk of a statement lists what occurs in it. -/
theorem Stmt.mem_walk_iff {x s : Stmt} : x ∈ s.walk ↔ x.Within s := by
  constructor
  · induction s using Stmt.induct with
    | h s ih =>
      intro hx
      rcases Stmt.mem_walk.1 hx with rfl | ⟨body, hb, hx⟩
      · exact .self
      · obtain ⟨t, ht, hx⟩ := Stmt.mem_walkAll.1 hx
        exact .of_body hb ht (ih body hb t ht hx)
  · intro h
    induction h with
    | self => exact Stmt.mem_walk_self x
    | yes hs _ ih => exact Stmt.mem_walk_of_body (by simp [bodies]) hs ih
    | no hs _ ih => exact Stmt.mem_walk_of_body (by simp [bodies]) hs ih
    | init hs _ ih => exact Stmt.mem_walk_of_body (by simp [bodies]) hs ih
    | step hs _ ih => exact Stmt.mem_walk_of_body (by simp [bodies]) hs ih
    | forBody hs _ ih => exact Stmt.mem_walk_of_body (by simp [bodies]) hs ih
    | whileBody hs _ ih => exact Stmt.mem_walk_of_body (by simp [bodies]) hs ih
    | doBody hs _ ih => exact Stmt.mem_walk_of_body (by simp [bodies]) hs ih
    | case hc hs _ ih =>
      refine Stmt.mem_walk_of_body (List.mem_append_left _ (List.mem_map.2 ⟨_, hc, rfl⟩)) hs ih
    | default hs _ ih => exact Stmt.mem_walk_of_body (by simp [bodies]) hs ih
    | block hs _ ih => exact Stmt.mem_walk_of_body (by simp [bodies]) hs ih

/-! ## Bodies -/

/-- A statement occurs in a body, at any depth. -/
def Stmt.OccursIn (x : Stmt) (body : List Stmt) : Prop := ∃ s ∈ body, x.Within s

/-- An expression occurs in a body, at any depth of statements and expressions. -/
def Expr.OccursIn (x : Expr) (body : List Stmt) : Prop :=
  ∃ s : Stmt, s.OccursIn body ∧ ∃ e, s.Holds e ∧ x.Within e

theorem Stmt.Within.occursIn {x s : Stmt} {body : List Stmt} (h : x.Within s)
    (hs : s.OccursIn body) : x.OccursIn body := by
  obtain ⟨t, ht, hst⟩ := hs
  exact ⟨t, ht, h.trans hst⟩

theorem Expr.Within.occursIn {x e : Expr} {body : List Stmt} (h : x.Within e)
    (he : e.OccursIn body) : x.OccursIn body := by
  obtain ⟨s, hs, y, hy, hey⟩ := he
  exact ⟨s, hs, y, hy, h.trans hey⟩

theorem Stmt.mem_walkAll_iff {x : Stmt} {body : List Stmt} :
    x ∈ Stmt.walkAll body ↔ x.OccursIn body := by
  simp [Stmt.mem_walkAll, Stmt.OccursIn, Stmt.mem_walk_iff]

theorem mem_exprsOf {x : Expr} {body : List Stmt} :
    x ∈ exprsOf body ↔ ∃ s ∈ Stmt.walkAll body, ∃ e ∈ s.exprs, x ∈ e.walk := by
  simp [exprsOf, List.mem_flatMap]

/-- The expressions of a body are those that occur in it. -/
theorem mem_exprsOf_iff {x : Expr} {body : List Stmt} : x ∈ exprsOf body ↔ x.OccursIn body := by
  simp [mem_exprsOf, Expr.OccursIn, Stmt.mem_walkAll_iff, Stmt.mem_exprs_iff, Expr.mem_walk_iff]

/-- The resources of a body are those it refers to. -/
theorem mem_resourcesOf_iff {name : String} {body : List Stmt} :
    name ∈ resourcesOf body ↔ ∃ ty, (Expr.resource name ty).OccursIn body := by
  simp only [resourcesOf, List.mem_eraseDups, List.mem_filterMap, mem_exprsOf_iff]
  constructor
  · intro h
    obtain ⟨e, he, hname⟩ := h
    cases e <;> simp only [Expr.resourceName?, Option.some.injEq, reduceCtorEq] at hname
    subst hname
    exact ⟨_, he⟩
  · intro h
    obtain ⟨ty, h⟩ := h
    exact ⟨_, h, rfl⟩

/-- The declared types of a body are those of the declarations that occur in it. -/
theorem mem_declaredTypes_iff {ty : Ty} {body : List Stmt} :
    ty ∈ declaredTypes body ↔ ∃ name init, (Stmt.declare name ty init).OccursIn body := by
  simp only [declaredTypes, List.mem_filterMap, Stmt.mem_walkAll_iff]
  constructor
  · intro h
    obtain ⟨s, hs, hty⟩ := h
    split at hty
    · simp only [Option.some.injEq] at hty
      subst hty
      exact ⟨_, _, hs⟩
    · cases hty
  · intro h
    obtain ⟨name, init, h⟩ := h
    exact ⟨_, h, rfl⟩

/-! ## Calls -/

/-- The effects of an expression are those of its children, and its own behind them. -/
theorem Expr.effects_eq (e : Expr) :
    e.effects = e.children.flatMap Expr.effects ++
      (match e with
        | .unary op _ _ => op.effects
        | .call function _ _ => [.call function]
        | .intrinsic i _ _ => i.effects
        | _ => []) := by
  cases e <;> simp [Expr.effects, Expr.children, Expr.effectsAll_eq_flatMap]

theorem Expr.effectsOption_eq_flatMap (e : Option Expr) :
    Expr.effectsOption e = e.toList.flatMap Expr.effects := by
  cases e <;> simp [Expr.effectsOption]

theorem Stmt.effectsOption_eq_flatMap (body : Option (List Stmt)) :
    Stmt.effectsOption body = body.toList.flatMap Stmt.effectsAll := by
  cases body <;> simp [Stmt.effectsOption]

theorem Stmt.effectsCases_eq_flatMap (cases : List Case) :
    Stmt.effectsCases cases = (cases.map Case.body).flatMap Stmt.effectsAll := by
  induction cases with
  | nil => simp [Stmt.effectsCases]
  | cons c rest ih =>
    obtain ⟨labels, body⟩ := c
    simp [Stmt.effectsCases, Case.body, ih]

/-- The effects of a statement are those of its expressions and of the bodies in it. -/
theorem Stmt.mem_effects {x : Effect} {s : Stmt} :
    x ∈ s.effects ↔ x ∈ s.exprs.flatMap Expr.effects ∨ x ∈ s.bodies.flatMap Stmt.effectsAll := by
  cases s <;>
    simp only [Stmt.effects, exprs, bodies, Expr.effectsOption_eq_flatMap,
      Stmt.effectsOption_eq_flatMap, Stmt.effectsCases_eq_flatMap, List.flatMap_cons,
      List.flatMap_nil, List.flatMap_append, List.append_nil, List.mem_append, List.not_mem_nil,
      or_false, false_or, or_assoc]
  -- A loop has its condition between its bodies or behind them.
  case forLoop => grind
  case doLoop => exact or_comm

/-- An expression has the effect of a call exactly when the call occurs in it. -/
theorem Expr.call_mem_effects_iff {function : String} {e : Expr} :
    .call function ∈ e.effects ↔ ∃ args ty, (Expr.call function args ty).Within e := by
  simp only [← Expr.mem_walk_iff]
  induction e using Expr.induct with
  | h e ih =>
    rw [Expr.effects_eq, List.mem_append, List.mem_flatMap]
    constructor
    · intro h
      rcases h with ⟨c, hc, hf⟩ | hown
      · obtain ⟨args, ty, h⟩ := (ih c hc).1 hf
        exact ⟨args, ty, Expr.mem_walk_of_child hc h⟩
      · cases e <;> simp only [UnaryOp.effects, Intrinsic.effects, List.mem_singleton,
          List.not_mem_nil, Effect.call.injEq] at hown
        · split at hown <;> simp at hown
        · subst hown
          exact ⟨_, _, Expr.mem_walk_self _⟩
        · split at hown <;> simp at hown
    · intro h
      obtain ⟨args, ty, h⟩ := h
      rcases Expr.mem_walk.1 h with rfl | ⟨c, hc, h⟩
      · exact .inr (by simp)
      · exact .inl ⟨c, hc, (ih c hc).2 ⟨args, ty, h⟩⟩

/-- A body has the effect of a call exactly when the call occurs in it. -/
theorem call_mem_effectsAll_iff {function : String} {body : List Stmt} :
    .call function ∈ Stmt.effectsAll body ↔
      ∃ args ty, (Expr.call function args ty) ∈ exprsOf body := by
  have hstmt : ∀ s : Stmt, .call function ∈ s.effects ↔
      ∃ t ∈ s.walk, ∃ e ∈ t.exprs, .call function ∈ e.effects := by
    intro s
    induction s using Stmt.induct with
    | h s ih =>
      rw [Stmt.mem_effects, List.mem_flatMap, List.mem_flatMap]
      constructor
      · intro h
        rcases h with h | ⟨body, hb, h⟩
        · exact ⟨s, Stmt.mem_walk_self s, h⟩
        · obtain ⟨t, ht, h⟩ := List.mem_flatMap.1 (Stmt.effectsAll_eq_flatMap body ▸ h)
          obtain ⟨u, hu, h⟩ := (ih body hb t ht).1 h
          exact ⟨u, Stmt.mem_walk_of_body hb ht hu, h⟩
      · intro h
        obtain ⟨t, ht, h⟩ := h
        rcases Stmt.mem_walk.1 ht with rfl | ⟨body, hb, ht⟩
        · exact .inl h
        · obtain ⟨u, hu, ht⟩ := Stmt.mem_walkAll.1 ht
          refine .inr ⟨body, hb, Stmt.effectsAll_eq_flatMap body ▸ List.mem_flatMap.2 ⟨u, hu, ?_⟩⟩
          exact (ih body hb u hu).2 ⟨t, ht, h⟩
  simp only [Stmt.effectsAll_eq_flatMap, List.mem_flatMap, hstmt, mem_exprsOf,
    Expr.call_mem_effects_iff, ← Expr.mem_walk_iff, Stmt.mem_walkAll]
  grind

/-- The functions a body calls are those that a call in it names. -/
theorem mem_calleesOf_iff {function : String} {body : List Stmt} :
    function ∈ calleesOf body ↔ ∃ args ty, (Expr.call function args ty).OccursIn body := by
  simp only [calleesOf, List.mem_eraseDups, List.mem_filterMap, ← mem_exprsOf_iff,
    ← call_mem_effectsAll_iff]
  constructor
  · intro h
    obtain ⟨effect, h, hc⟩ := h
    cases effect <;> simp only [Effect.callee?, Option.some.injEq, reduceCtorEq] at hc
    exact hc ▸ h
  · exact fun h => ⟨_, h, rfl⟩

end Shading.Core
