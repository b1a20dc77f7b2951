import Shading.Proofs.Elaboration.Expr

/-!
# Elaborated statements

`Scope.ElaboratedStmt` says what a surface statement is elaborated to, form by form,
as `Scope.Elaborated` does for expressions.

Elaborated code is not elaborated piece by piece: a matrix member becomes two
indexing steps, and a product through a matrix is written out.  `Scope.Made` says
where an expression in elaborated code comes from, these pieces included, and every
expression that occurs in an elaborated body is made in one of its ways
(`made_of_occursIn`).
-/

namespace Shading.Scope

open Shading.Core (Expr Literal)

variable {s : Scope}

/-! ## Parts -/

/-- A label of a case, and the constant it is elaborated to. -/
def Label (s : Scope) (e : Surface.Expr) (l : Literal) : Prop :=
  (∃ ty, s.Value e (.literal l ty)) ∧ l.isInteger = true

theorem label_of_label {e : Surface.Expr} {l : Literal} (h : s.label e = .ok l) : s.Label e l := by
  simp only [label, bind_eq_ok, value_eq_ok] at h
  obtain ⟨c, hc, h⟩ := h
  split at h
  · obtain rfl := pure_eq_ok.1 h
    exact ⟨⟨_, hc⟩, rfl⟩
  · obtain rfl := pure_eq_ok.1 h
    exact ⟨⟨_, hc⟩, rfl⟩
  · exact absurd h fault_ne_ok

theorem labels_of_labels {es : List Surface.Expr} {ls : List Literal} (h : s.labels es = .ok ls) :
    List.Forall₂ s.Label es ls := by
  have hlabels : s.labels es = es.mapM s.label :=
    eq_mapM (by simp only [labels]) (fun e es => by simp only [labels]) es
  rw [hlabels, mapM_eq_ok_iff] at h
  exact h.imp fun _ _ hl => label_of_label hl

theorem initializer_eq_ok {ty : Ty} {init : Option Surface.Expr} {c : Option Expr} :
    s.initializer ty init = .ok c ↔ Option.Rel (fun e c => s.Value e c ∧ c.ty = ty) init c := by
  have hinit : s.initializer ty init = init.mapM fun e => do
      let c ← s.value e
      s.require (c.typeFault? .initializer ty)
      return c := by
    cases init with
    | none => rfl
    | some e => simp only [initializer, Option.mapM_some, map_eq_pure_bind, bind_assoc, pure_bind]
  simp only [hinit, option_mapM_eq_ok_iff, bind_eq_ok, pure_eq_ok, value_eq_ok, require_eq_ok,
    Core.Expr.typeFault?_eq_none, exists_const, exists_eq_right_right]

theorem optionalCondition_eq_ok {condition : Option Surface.Expr} {c : Option Expr} :
    s.optionalCondition condition = .ok c ↔ Option.Rel s.Condition condition c := by
  have hcondition : s.optionalCondition condition = condition.mapM s.condition := by
    cases condition <;> rfl
  simp only [hcondition, option_mapM_eq_ok_iff, condition_eq_ok]

theorem headerFault?_eq_none {fits : Core.Stmt → Bool} {reason : ConstructFault}
    {body : List Core.Stmt} :
    headerFault? fits reason body = none ↔ ∀ t ∈ body, fits t = true := by
  simp [headerFault?]

theorem stmts_eq_mapM (body : List Surface.Stmt) : s.stmts body = body.mapM s.stmt :=
  eq_mapM (by simp only [stmts]) (fun a rest => by simp only [stmts]) body

theorem stmts_eq_ok {body : List Surface.Stmt} {code : List Core.Stmt} :
    s.stmts body = .ok code ↔ List.Forall₂ (fun a b => s.stmt a = .ok b) body code := by
  rw [stmts_eq_mapM, mapM_eq_ok_iff]

/-- A block that may be missing, and its code. -/
def Block (s : Scope) (body : Option (List Surface.Stmt)) (code : Option (List Core.Stmt)) : Prop :=
  Option.Rel (fun a b => s.stmts a = .ok b) body code

theorem optionalStmts_eq_ok {body : Option (List Surface.Stmt)} {code : Option (List Core.Stmt)} :
    s.optionalStmts body = .ok code ↔ s.Block body code := by
  have hblock : s.optionalStmts body = body.mapM s.stmts := by
    cases body <;> simp only [optionalStmts] <;> rfl
  rw [hblock, option_mapM_eq_ok_iff, Block]

/-- A case and its code. -/
inductive ElaboratedCase (s : Scope) : Surface.Case → Core.Case → Prop where
  | mk {labels body ls code} : List.Forall₂ s.Label labels ls → s.stmts body = .ok code →
      ElaboratedCase s (.mk labels body) (.mk ls code)

theorem cases_of_cases {cases : List Surface.Case} {code : List Core.Case}
    (h : s.cases cases = .ok code) : List.Forall₂ s.ElaboratedCase cases code := by
  induction cases generalizing code with
  | nil => simp only [Scope.cases, Except.ok.injEq] at h; exact h ▸ .nil
  | cons c rest ih =>
    obtain ⟨labels, body⟩ := c
    simp only [Scope.cases, bind_eq_ok, pure_eq_ok] at h
    obtain ⟨ls, hls, b, hb, cs, hcs, rfl⟩ := h
    exact .cons (.mk (labels_of_labels hls) hb) (ih hcs)

/-! ## Forms -/

/-- What a surface statement is elaborated to, by its form. -/
inductive ElaboratedStmt (s : Scope) : Surface.Stmt → Core.Stmt → Prop where
  | declare {name written init ty c} : s.program.Denotes written ty → ty.isVoid = false →
      Option.Rel (fun e c => s.Value e c ∧ c.ty = ty) init c →
      ElaboratedStmt s (.declare name written init) (.declare name ty c)
  | assign {target op value t v} : s.Value target t → t.writeFault? = none → s.Value value v →
      Core.assignFault? t op v = none →
      (op = .mul → t.ty.isMatrix = false ∧ v.ty.isMatrix = false) →
      ElaboratedStmt s (.assign target op value) (.assign t op v)
  /-- A product through a matrix is written out. -/
  | product {target value t v} : s.Value target t → t.writeFault? = none → s.Value value v →
      Core.assignFault? t .mul v = none → t.ty.isMatrix = true ∨ v.ty.isMatrix = true →
      ElaboratedStmt s (.assign target .mul value) (.assign t .assign (.binary .mul t v t.ty))
  | expr {e c} : s.Value e c → ElaboratedStmt s (.expr e) (.expr c)
  | branch {condition yes no c y n} : s.Condition condition c → s.stmts yes = .ok y →
      s.Block no n → ElaboratedStmt s (.branch condition yes no) (.branch c y n)
  | forLoop {init condition step body i c t b} : s.stmts init = .ok i →
      (∀ x ∈ i, x.isSimple = true) → Option.Rel s.Condition condition c → s.stmts step = .ok t →
      (∀ x ∈ t, x.isStep = true) → s.stmts body = .ok b →
      ElaboratedStmt s (.forLoop init condition step body) (.forLoop i c t b)
  | whileLoop {condition body c b} : s.Condition condition c → s.stmts body = .ok b →
      ElaboratedStmt s (.whileLoop condition body) (.whileLoop c b)
  | doLoop {body condition b c} : s.stmts body = .ok b → s.Condition condition c →
      ElaboratedStmt s (.doLoop body condition) (.doLoop b c)
  | switch {selector cases default c cs d} : s.Value selector c → c.ty.isIntegerScalar = true →
      List.Forall₂ s.ElaboratedCase cases cs → s.Block default d →
      ElaboratedStmt s (.switch selector cases default) (.switch c cs d)
  | retNone : s.result.isVoid = true → ElaboratedStmt s (.ret none) (.ret none)
  | ret {e c} : s.Value e c → c.ty = s.result → ElaboratedStmt s (.ret (some e)) (.ret (some c))
  | leave : ElaboratedStmt s .leave .leave
  | next : ElaboratedStmt s .next .next
  | block {body b} : s.stmts body = .ok b → ElaboratedStmt s (.block body) (.block b)

/-- Every surface statement that is elaborated is elaborated by its form. -/
theorem elaborated_of_stmt {a : Surface.Stmt} {t : Core.Stmt} (h : s.stmt a = .ok t) :
    s.ElaboratedStmt a t := by
  cases a with
  | declare name written init =>
    simp only [stmt, bind_eq_ok, pure_eq_ok, Program.elaborateValueType_eq_ok,
      initializer_eq_ok] at h
    obtain ⟨ty, ⟨hty, hv⟩, c, hc, rfl⟩ := h
    exact .declare hty hv hc
  | assign target op value =>
    simp only [stmt, bind_eq_ok, pure_eq_ok, value_eq_ok, require_eq_ok] at h
    obtain ⟨t, ht, _, hw, v, hv, _, hf, rfl⟩ := h
    rw [assignment]
    split
    · next hp =>
      simp only [Bool.and_eq_true, decide_eq_true_eq, Bool.or_eq_true] at hp
      obtain ⟨rfl, hm⟩ := hp
      exact .product ht hw hv hf hm
    · next hp =>
      refine .assign ht hw hv hf fun hop => ?_
      simpa [hop] using hp
  | expr e =>
    simp only [stmt, bind_eq_ok, pure_eq_ok, value_eq_ok] at h
    obtain ⟨c, hc, rfl⟩ := h
    exact .expr hc
  | branch condition yes no =>
    simp only [stmt, bind_eq_ok, pure_eq_ok, condition_eq_ok, optionalStmts_eq_ok] at h
    obtain ⟨c, hc, y, hy, n, hn, rfl⟩ := h
    exact .branch hc hy hn
  | forLoop init condition step body =>
    simp only [stmt, bind_eq_ok, pure_eq_ok, require_eq_ok, headerFault?_eq_none,
      optionalCondition_eq_ok] at h
    obtain ⟨i, hi, _, hsimple, c, hc, t, ht, _, hstep, b, hb, rfl⟩ := h
    exact .forLoop hi hsimple hc ht hstep hb
  | whileLoop condition body =>
    simp only [stmt, bind_eq_ok, pure_eq_ok, condition_eq_ok] at h
    obtain ⟨c, hc, b, hb, rfl⟩ := h
    exact .whileLoop hc hb
  | doLoop body condition =>
    simp only [stmt, bind_eq_ok, pure_eq_ok, condition_eq_ok] at h
    obtain ⟨b, hb, c, hc, rfl⟩ := h
    exact .doLoop hb hc
  | switch selector cases default =>
    simp only [stmt, bind_eq_ok, value_eq_ok] at h
    obtain ⟨c, hc, h⟩ := h
    split at h
    · next hint =>
      simp only [bind_eq_ok, pure_eq_ok, optionalStmts_eq_ok] at h
      obtain ⟨cs, hcs, d, hd, rfl⟩ := h
      exact .switch hc hint (cases_of_cases hcs) hd
    · exact absurd h fault_ne_ok
  | ret value =>
    simp only [stmt] at h
    cases value with
    | none =>
      simp only [return?] at h
      split at h
      · next hv =>
        obtain rfl := Except.ok.inj h
        exact .retNone hv
      · exact absurd h fault_ne_ok
    | some e =>
      simp only [return?, bind_eq_ok, pure_eq_ok, value_eq_ok, require_eq_ok,
        Core.Expr.typeFault?_eq_none] at h
      obtain ⟨c, hc, _, hty, rfl⟩ := h
      exact .ret hc hty
  | leave => simp only [stmt, Except.ok.injEq] at h; exact h ▸ .leave
  | next => simp only [stmt, Except.ok.injEq] at h; exact h ▸ .next
  | block body =>
    simp only [stmt, bind_eq_ok, pure_eq_ok] at h
    obtain ⟨b, hb, rfl⟩ := h
    exact .block hb
  | host construct => exact absurd (by simpa only [stmt] using h) fault_ne_ok

/-! ## Where code comes from -/

/-- Where an expression in elaborated code comes from. -/
inductive Made (s : Scope) : Expr → Prop where
  | source {e c} : s.operand e = .ok c → Made s c
  /-- The row that a matrix element is in. -/
  | row {base b row} : s.Value base b → b.ty = .matrix →
      Made s (.index b (positionLiteral row) .float4)
  /-- The number of a row or a column. -/
  | position {value} : Made s (positionLiteral value)
  /-- A product that is assigned to its own target. -/
  | product {target value t v} : s.Value target t → s.Value value v →
      t.ty.isMatrix = true ∨ v.ty.isMatrix = true → Made s (.binary .mul t v t.ty)

theorem Value.made {e : Surface.Expr} {c : Expr} (h : s.Value e c) : s.Made c := .source h.1

theorem made_of_forall₂ {es : List Surface.Expr} {cs : List Expr}
    (h : List.Forall₂ (fun e c => s.operand e = .ok c) es cs) {c : Expr} (hc : c ∈ cs) :
    s.Made c := by
  obtain ⟨e, -, he⟩ := forall₂_of_mem_right h hc
  exact .source he

/-- The parts of what is made from one surface expression are made. -/
theorem Elaborated.made_of_child {e : Surface.Expr} {c x : Expr} (h : s.Elaborated e c)
    (hx : x ∈ c.children) : s.Made x := by
  cases h with
  | literal => simp [Expr.children] at hx
  | var => simp [Expr.children] at hx
  | uniform => simp [Expr.children] at hx
  | resource => simp [Expr.children] at hx
  | field hb => obtain rfl := List.mem_singleton.1 hx; exact hb.made
  | swizzle hb => obtain rfl := List.mem_singleton.1 hx; exact hb.made
  | matrixElement hb hty =>
    rcases Expr.mem_children_index.1 hx with rfl | rfl
    · exact .row hb hty
    · exact .position
  | index hb hi =>
    rcases Expr.mem_children_index.1 hx with rfl | rfl
    · exact .source hb
    · exact hi.made
  | unary hc => obtain rfl := List.mem_singleton.1 hx; exact hc.made
  | binary hl hr =>
    rcases Expr.mem_children_binary.1 hx with rfl | rfl
    · exact hl.made
    · exact hr.made
  | conditional hc hy hn =>
    rcases Expr.mem_children_conditional.1 hx with rfl | rfl | rfl
    · exact .source hc.1
    · exact hy.made
    · exact hn.made
  | call _ _ hcs => exact made_of_forall₂ hcs hx
  | intrinsic _ _ hcs => exact made_of_forall₂ hcs hx
  | construct _ hcs =>
    obtain ⟨e, -, he⟩ := forall₂_of_mem_right hcs hx
    exact he.made
  | cast _ hc => obtain rfl := List.mem_singleton.1 hx; exact hc.made
  | enumValue => simp [Expr.children] at hx

/-- The parts of what elaboration makes are made by it. -/
theorem Made.of_child {e x : Expr} (h : s.Made e) (hx : x ∈ e.children) : s.Made x := by
  cases h with
  | source h => exact (elaborated_of_operand h).made_of_child hx
  | row hb hty =>
    rcases Expr.mem_children_index.1 hx with rfl | rfl
    · exact hb.made
    · exact .position
  | position => simp [positionLiteral, Expr.children] at hx
  | product ht hv =>
    rcases Expr.mem_children_binary.1 hx with rfl | rfl
    · exact ht.made
    · exact hv.made

theorem Made.of_within {e x : Expr} (h : s.Made e) (hx : x.Within e) : s.Made x := by
  rw [← Core.Expr.mem_walk_iff] at hx
  induction e using Core.Expr.induct with
  | h e ih =>
    rcases Core.Expr.mem_walk.1 hx with rfl | ⟨c, hc, hx⟩
    · exact h
    · exact ih c hc (h.of_child hc) hx

/-- The expressions that stand in an elaborated statement are made. -/
theorem ElaboratedStmt.made_of_holds {a : Surface.Stmt} {t : Core.Stmt} {e : Expr}
    (h : s.ElaboratedStmt a t) (he : t.Holds e) : s.Made e := by
  cases h with
  | declare _ _ hc => cases he; cases hc with | some hc => exact hc.1.made
  | assign ht _ hv =>
    cases he with
    | target => exact ht.made
    | value => exact hv.made
  | product ht _ hv _ hm =>
    cases he with
    | target => exact ht.made
    | value => exact .product ht hv hm
  | expr hc => cases he; exact hc.made
  | branch hc => cases he; exact .source hc.1
  | forLoop _ _ hc => cases he; cases hc with | some hc => exact .source hc.1
  | whileLoop hc => cases he; exact .source hc.1
  | doLoop _ hc => cases he; exact .source hc.1
  | switch hc => cases he; exact hc.made
  | retNone => cases he
  | ret hc => cases he; exact hc.made
  | leave => cases he
  | next => cases he
  | block => cases he

/-- The blocks of an elaborated statement are elaborated. -/
theorem ElaboratedStmt.exists_stmts {a : Surface.Stmt} {t : Core.Stmt} {code : List Core.Stmt}
    (h : s.ElaboratedStmt a t) (hc : code ∈ t.bodies) : ∃ body, s.stmts body = .ok code := by
  cases h with
  | branch _ hy hn =>
    rcases List.mem_cons.1 hc with rfl | hc
    · exact ⟨_, hy⟩
    · obtain rfl := Option.mem_toList.1 hc
      cases hn with | some hn => exact ⟨_, hn⟩
  | forLoop hi _ _ ht _ hb =>
    simp only [Core.Stmt.bodies, List.mem_cons, List.not_mem_nil, or_false] at hc
    rcases hc with rfl | rfl | rfl
    · exact ⟨_, hi⟩
    · exact ⟨_, ht⟩
    · exact ⟨_, hb⟩
  | whileLoop _ hb => obtain rfl := List.mem_singleton.1 hc; exact ⟨_, hb⟩
  | doLoop hb => obtain rfl := List.mem_singleton.1 hc; exact ⟨_, hb⟩
  | switch _ _ hcs hd =>
    rcases List.mem_append.1 hc with hc | hc
    · obtain ⟨c, hmem, rfl⟩ := List.mem_map.1 hc
      obtain ⟨_, -, hcase⟩ := forall₂_of_mem_right hcs hmem
      cases hcase with | mk _ hb => exact ⟨_, hb⟩
    · obtain rfl := Option.mem_toList.1 hc
      cases hd with | some hd => exact ⟨_, hd⟩
  | block hb => obtain rfl := List.mem_singleton.1 hc; exact ⟨_, hb⟩
  | _ => simp [Core.Stmt.bodies] at hc

/-- Every statement in elaborated code is elaborated from a surface statement. -/
theorem exists_elaborated_of_occursIn {body : List Surface.Stmt} {code : List Core.Stmt}
    (h : s.stmts body = .ok code) {t : Core.Stmt} (ht : t.OccursIn code) :
    ∃ a, s.ElaboratedStmt a t := by
  have hstmt : ∀ u : Core.Stmt, (∃ a, s.ElaboratedStmt a u) → t ∈ u.walk →
      ∃ a, s.ElaboratedStmt a t := by
    intro u
    induction u using Core.Stmt.induct with
    | h u ih =>
      rintro ⟨a, ha⟩ ht
      rcases Core.Stmt.mem_walk.1 ht with rfl | ⟨body, hb, ht⟩
      · exact ⟨a, ha⟩
      · obtain ⟨source, hsource⟩ := ha.exists_stmts hb
        obtain ⟨v, hv, ht⟩ := Core.Stmt.mem_walkAll.1 ht
        obtain ⟨a', -, ha'⟩ := forall₂_of_mem_right (stmts_eq_ok.1 hsource) hv
        exact ih body hb v hv ⟨a', elaborated_of_stmt ha'⟩ ht
  obtain ⟨u, hu, ht⟩ := Core.Stmt.mem_walkAll.1 (Core.Stmt.mem_walkAll_iff.2 ht)
  obtain ⟨a, -, ha⟩ := forall₂_of_mem_right (stmts_eq_ok.1 h) hu
  exact hstmt u ⟨a, elaborated_of_stmt ha⟩ ht

/-- Every expression in elaborated code is made by elaboration. -/
theorem made_of_occursIn {body : List Surface.Stmt} {code : List Core.Stmt}
    (h : s.stmts body = .ok code) {e : Expr} (he : e.OccursIn code) : s.Made e := by
  obtain ⟨t, ht, x, hx, he⟩ := he
  obtain ⟨a, ha⟩ := exists_elaborated_of_occursIn h ht
  exact (ha.made_of_holds hx).of_within he

end Shading.Scope
