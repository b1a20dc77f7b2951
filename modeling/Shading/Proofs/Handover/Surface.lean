import Shading.Proofs.Handover.Trims

/-!
# Reading surface code back

Types, constants, expressions and statements are read back from what is written of them,
whatever is left out (`reads_type`, `reads_expr`, `reads_stmt`).  The constants of a piece of
code are the only part that depends on how numbers are written, so its numbers (`floats`)
have to be read back.

The proofs follow the alternatives.  The content of each is trimmed by itself, and the
reader is a sequence of steps that find its parts.
-/

namespace Shading

open Json

variable {number : Json.Number → Option Binary32}

/-! ## Numbers and constants -/

/-- A JSON number has no members to leave out. -/
theorem reads_float {j : Json} {x : Binary32} (h : Binary32.ofJson? number j = some x) :
    Reads (Binary32.ofJson? number) j x := by
  cases j with
  | number value =>
    refine ⟨rfl, ?_⟩
    rintro _ ⟨⟩
    exact h
  | _ => cases h

namespace Core.Literal

/-- The number of a constant. -/
def floats : Literal → List Binary32
  | .float x => [x]
  | .bool _ | .int _ | .uint _ => []

theorem tag_not_mem (l : Literal) : l.tag ∉ defaults.map Prod.fst := by
  cases l <;> simp [tag, defaults]

theorem reads {float : Binary32 → Json} (l : Literal)
    (h : ∀ x ∈ l.floats, Binary32.ofJson? number (float x) = some x) :
    Reads (Literal.ofJson? number) (l.toJson float) l := by
  cases l with
  | bool value => exact .wrapped (tag_not_mem _) (.bool value) fun _ => rfl
  | int value => exact .wrapped (tag_not_mem _) (.int32 value) fun _ => rfl
  | uint value => exact .wrapped (tag_not_mem _) (.uint32 value) fun _ => rfl
  | float x => exact .wrapped (tag_not_mem _) (reads_float (h x (.head _))) fun _ => rfl

end Core.Literal

/-! ## Types -/

theorem Semantic.reads (s : Semantic) : Reads Semantic.ofJson? s.toJson s := by
  cases s with
  | colorTarget index =>
    exact .wrapped (by simp [name, defaults]) (.uint32 index) fun _ => rfl
  | _ => exact .plain rfl

namespace Surface

namespace TypeExpr

theorem tag_not_mem (ty : TypeExpr) : ty.tag ∉ defaults.map Prod.fst := by
  cases ty <;> simp [tag, defaults]

theorem reads (ty : TypeExpr) : Reads TypeExpr.ofJson? ty.toJson ty := by
  induction ty with
  | void => exact .plain (by rw [ofJson?]; rfl)
  | scalar kind => exact .wrapped (tag_not_mem _) (.named kind) fun c => by rw [ofJson?]; rfl
  | vector kind size =>
    refine .variant (not_omittable (tag_not_mem _) rfl) fun c hc => ?_
    rw [ofJson?]
    exact bind_of_some (((Reads.named kind).pair (.uint8 size)).read c hc)
  | matrix rows columns =>
    refine .variant (not_omittable (tag_not_mem _) rfl) fun c hc => ?_
    obtain ⟨members, rfl, hr⟩ := exists_remains (by simp) hc
    have hrows := hr.field "rows" rfl (by decide) (.uint8 rows)
    have hcolumns := hr.field "columns" rfl (by decide) (.uint8 columns)
    rw [ofJson?]
    exact (bind_of_some hrows).trans (bind_of_some hcolumns)
  | named name => exact .wrapped (tag_not_mem _) (.string name) fun c => by rw [ofJson?]; rfl
  | array element length ih =>
    refine .variant (not_omittable (tag_not_mem _) rfl) fun c hc => ?_
    rw [ofJson?]
    exact bind_of_some ((ih.pair (.uint32 length)).read c hc)
  | host name => exact .wrapped (tag_not_mem _) (.string name) fun c => by rw [ofJson?]; rfl

end TypeExpr

/-! ## Expressions -/

theorem Callee.reads (callee : Callee) : Reads Callee.ofJson? callee.toJson callee := by
  cases callee with
  | function name => exact .wrapped (by decide) (.string name) fun _ => rfl
  | intrinsic name => exact .wrapped (by decide) (.string name) fun _ => rfl

namespace Expr

mutual

/-- The numbers of an expression. -/
def floats : Expr → List Binary32
  | .literal value _ => value.floats
  | .var _ _ | .resource _ _ | .enumValue _ _ _ _ | .host _ _ => []
  | .member base _ _ => base.floats
  | .index base position _ => base.floats ++ position.floats
  | .unary _ operand _ => operand.floats
  | .binary _ lhs rhs _ => lhs.floats ++ rhs.floats
  | .conditional condition yes no _ => condition.floats ++ yes.floats ++ no.floats
  | .call _ args _ => floatsAll args
  | .construct args _ => floatsAll args
  | .cast operand _ => operand.floats

/-- The numbers of several expressions. -/
def floatsAll : List Expr → List Binary32
  | [] => []
  | e :: rest => e.floats ++ floatsAll rest

end

theorem tag_not_mem (e : Expr) : e.tag ∉ defaults.map Prod.fst := by
  cases e <;> simp [tag, defaults]

theorem contents_eq (float : Binary32 → Json) (es : List Expr) :
    contents float es = es.map (toJson float) := by
  induction es with
  | nil => rfl
  | cons e rest ih =>
    rw [contents, ih]
    rfl

/-- An expression is read back when its content is, beside a type that is read back. -/
theorem reads_node {e : Expr} {content : Json} (hc : content.isNull = false)
    (h : ∀ members content' hlt, Trims content content' →
      ((Json.object members).fieldOption "ty" fun p => TypeExpr.ofJson? p.1) = some e.ty? →
      (Json.object members).member? "kind" = some ⟨.variant e.tag (some content'), hlt⟩ →
        Expr.ofJson? number (.object members) = some e) :
    Reads (Expr.ofJson? number) (e.node content) e := by
  refine .object (by simp) fun members hr => ?_
  have hty := hr.fieldOption "ty" rfl (by decide) fun ty (_ : e.ty? = some ty) => ty.reads
  have hkind : ((variant e.tag (some content)).isNull = false) := rfl
  obtain ⟨kind, ht, hl⟩ := hr.exists_lookup "kind" rfl (not_omittable (by decide) hkind)
  obtain ⟨content', hcontent, rfl⟩ := exists_variant (not_omittable e.tag_not_mem hc) ht
  rw [← member?_object] at hl
  obtain ⟨p, hp, hval⟩ := Option.map_eq_some_iff.1 hl
  obtain ⟨_, hlt⟩ := p
  obtain rfl := hval
  exact h members content' hlt hcontent hty hp

mutual

/-- An expression is read back when its numbers are. -/
theorem reads {float : Binary32 → Json} : (e : Expr) →
    (∀ x ∈ e.floats, Binary32.ofJson? number (float x) = some x) →
      Reads (Expr.ofJson? number) (e.toJson float) e
  | .literal value ty, h => by
    refine reads_node rfl fun members c hlt hc hty hkind => ?_
    rw [ofJson?]
    exact (bind_of_some hty).trans <| (bind_of_some hkind).trans <|
      bind_of_some ((value.reads h).read c hc)
  | .var name ty, _ => by
    refine reads_node rfl fun members c hlt hc hty hkind => ?_
    rw [ofJson?]
    exact (bind_of_some hty).trans <| (bind_of_some hkind).trans <|
      bind_of_some ((Reads.string name).read c hc)
  | .resource name ty, _ => by
    refine reads_node rfl fun members c hlt hc hty hkind => ?_
    rw [ofJson?]
    exact (bind_of_some hty).trans <| (bind_of_some hkind).trans <|
      bind_of_some ((Reads.string name).read c hc)
  | .member base name ty, h => by
    refine reads_node rfl fun members c hlt hc hty hkind => ?_
    obtain ⟨parts, rfl, hr⟩ := exists_remains (by simp) hc
    have hbase := hr.field "base" rfl (by decide) (reads base h)
    have hname := hr.field "member" rfl (by decide) (.string name)
    rw [ofJson?]
    exact (bind_of_some hty).trans <| (bind_of_some hkind).trans <|
      (bind_of_some hbase).trans (bind_of_some hname)
  | .index base position ty, h => by
    refine reads_node rfl fun members c hlt hc hty hkind => ?_
    obtain ⟨hb, hp⟩ := List.forall_mem_append.1 h
    obtain ⟨parts, rfl, hr⟩ := exists_remains (by simp) hc
    have hbase := hr.field "base" rfl (by decide) (reads base hb)
    have hposition := hr.field "index" rfl (by decide) (reads position hp)
    rw [ofJson?]
    exact (bind_of_some hty).trans <| (bind_of_some hkind).trans <|
      (bind_of_some hbase).trans (bind_of_some hposition)
  | .unary op operand ty, h => by
    refine reads_node rfl fun members c hlt hc hty hkind => ?_
    obtain ⟨parts, rfl, hr⟩ := exists_remains (by simp) hc
    have hop := hr.field "op" rfl (by decide) (.named op)
    have hoperand := hr.field "operand" rfl (by decide) (reads operand h)
    rw [ofJson?]
    exact (bind_of_some hty).trans <| (bind_of_some hkind).trans <|
      (bind_of_some hop).trans (bind_of_some hoperand)
  | .binary op lhs rhs ty, h => by
    refine reads_node rfl fun members c hlt hc hty hkind => ?_
    obtain ⟨hl, hr'⟩ := List.forall_mem_append.1 h
    obtain ⟨parts, rfl, hr⟩ := exists_remains (by simp) hc
    have hop := hr.field "op" rfl (by decide) (.named op)
    have hlhs := hr.field "lhs" rfl (by decide) (reads lhs hl)
    have hrhs := hr.field "rhs" rfl (by decide) (reads rhs hr')
    rw [ofJson?]
    exact (bind_of_some hty).trans <| (bind_of_some hkind).trans <|
      (bind_of_some hop).trans <| (bind_of_some hlhs).trans (bind_of_some hrhs)
  | .conditional condition yes no ty, h => by
    refine reads_node rfl fun members c hlt hc hty hkind => ?_
    obtain ⟨hcy, hn⟩ := List.forall_mem_append.1 h
    obtain ⟨hc', hy⟩ := List.forall_mem_append.1 hcy
    obtain ⟨parts, rfl, hr⟩ := exists_remains (by simp) hc
    have hcondition := hr.field "condition" rfl (by decide) (reads condition hc')
    have hyes := hr.field "then" rfl (by decide) (reads yes hy)
    have hno := hr.field "otherwise" rfl (by decide) (reads no hn)
    rw [ofJson?]
    exact (bind_of_some hty).trans <| (bind_of_some hkind).trans <|
      (bind_of_some hcondition).trans <| (bind_of_some hyes).trans (bind_of_some hno)
  | .call callee args ty, h => by
    refine reads_node rfl fun members c hlt hc hty hkind => ?_
    rw [content, contents_eq] at hc
    obtain ⟨parts, rfl, hr⟩ := exists_remains (by simp) hc
    have hcallee := hr.field "callee" rfl (by decide) callee.reads
    have hargs := hr.field "args" rfl (by decide) (.each (reads_all args h))
    rw [ofJson?]
    exact (bind_of_some hty).trans <| (bind_of_some hkind).trans <|
      (bind_of_some hcallee).trans (bind_of_some hargs)
  | .construct args ty, h => by
    refine reads_node rfl fun members c hlt hc hty hkind => ?_
    rw [content, contents_eq] at hc
    rw [ofJson?]
    exact (bind_of_some hty).trans <| (bind_of_some hkind).trans <|
      bind_of_some ((Reads.each (reads_all args h)).read c hc)
  | .cast operand ty, h => by
    refine reads_node rfl fun members c hlt hc hty hkind => ?_
    rw [ofJson?]
    exact (bind_of_some hty).trans <| (bind_of_some hkind).trans <|
      bind_of_some ((reads operand h).read c hc)
  | .enumValue enumeration name value ty, _ => by
    refine reads_node rfl fun members c hlt hc hty hkind => ?_
    obtain ⟨parts, rfl, hr⟩ := exists_remains (by simp) hc
    have henumeration := hr.field "enum_name" rfl (by decide) (.string enumeration)
    have hname := hr.field "member" rfl (by decide) (.string name)
    have hvalue := hr.field "value" rfl (by decide) (.int32 value)
    rw [ofJson?]
    exact (bind_of_some hty).trans <| (bind_of_some hkind).trans <|
      (bind_of_some henumeration).trans <| (bind_of_some hname).trans (bind_of_some hvalue)
  | .host name ty, _ => by
    refine reads_node rfl fun members c hlt hc hty hkind => ?_
    rw [ofJson?]
    exact (bind_of_some hty).trans <| (bind_of_some hkind).trans <|
      bind_of_some ((Reads.string name).read c hc)

theorem reads_all {float : Binary32 → Json} : (es : List Expr) →
    (∀ x ∈ floatsAll es, Binary32.ofJson? number (float x) = some x) →
      ∀ e ∈ es, Reads (Expr.ofJson? number) (e.toJson float) e
  | [], _ => by simp
  | e :: rest, h => by
    obtain ⟨he, hrest⟩ := List.forall_mem_append.1 h
    exact List.forall_mem_cons.2 ⟨reads e he, reads_all rest hrest⟩

end

/-- An expression that may be missing is read back when it is there. -/
theorem reads_option {float : Binary32 → Json} {o : Option Expr}
    (h : ∀ x ∈ o.toList.flatMap floats, Binary32.ofJson? number (float x) = some x) :
    ∀ e, o = some e → Reads (Expr.ofJson? number) (e.toJson float) e := by
  rintro e rfl
  exact e.reads (by simpa using h)

end Expr

/-! ## Statements -/

namespace Stmt

mutual

/-- The numbers of a statement. -/
def floats : Stmt → List Binary32
  | .declare _ _ init => init.toList.flatMap Expr.floats
  | .assign target _ value => target.floats ++ value.floats
  | .expr value => value.floats
  | .branch condition yes no => condition.floats ++ (floatsAll yes ++ floatsOption no)
  | .forLoop init condition step body =>
    floatsAll init ++ (condition.toList.flatMap Expr.floats ++ (floatsAll step ++ floatsAll body))
  | .whileLoop condition body => condition.floats ++ floatsAll body
  | .doLoop body condition => floatsAll body ++ condition.floats
  | .switch selector cases default =>
    selector.floats ++ (floatsCases cases ++ floatsOption default)
  | .ret value => value.toList.flatMap Expr.floats
  | .leave | .next | .host _ => []
  | .block body => floatsAll body

/-- The numbers of several statements. -/
def floatsAll : List Stmt → List Binary32
  | [] => []
  | s :: rest => s.floats ++ floatsAll rest

/-- The numbers of a block that may be missing. -/
def floatsOption : Option (List Stmt) → List Binary32
  | none => []
  | some body => floatsAll body

/-- The numbers of the cases of a switch. -/
def floatsCases : List Case → List Binary32
  | [] => []
  | .mk labels body :: rest => Expr.floatsAll labels ++ (floatsAll body ++ floatsCases rest)

end

/-! The writers of lists are maps. -/

/-- A case as it is written. -/
def caseJson (float : Binary32 → Json) : Case → Json
  | .mk labels body =>
    .object [("labels", .list (Expr.toJson float) labels), ("body", .list (toJson float) body)]

theorem contents_eq (float : Binary32 → Json) (body : List Stmt) :
    contents float body = body.map (toJson float) := by
  induction body with
  | nil => rfl
  | cons s rest ih =>
    rw [contents, ih]
    rfl

theorem optionalContents_eq (float : Binary32 → Json) (o : Option (List Stmt)) :
    optionalContents float o = .optional (.list (toJson float)) o := by
  cases o with
  | none => rfl
  | some body =>
    rw [optionalContents, contents_eq]
    rfl

theorem caseContents_eq (float : Binary32 → Json) (cases : List Case) :
    caseContents float cases = cases.map (caseJson float) := by
  induction cases with
  | nil => rfl
  | cons c rest ih =>
    obtain ⟨labels, body⟩ := c
    rw [caseContents, ih, contents_eq]
    rfl

theorem tag_not_mem (s : Stmt) : s.tag ∉ defaults.map Prod.fst := by
  cases s <;> simp [tag, defaults]

mutual

/-- A statement is read back when its numbers are. -/
theorem reads {float : Binary32 → Json} : (s : Stmt) →
    (∀ x ∈ s.floats, Binary32.ofJson? number (float x) = some x) →
      Reads (Stmt.ofJson? number) (s.toJson float) s
  | .declare name ty init, h => by
    refine .variant (not_omittable (tag_not_mem _) rfl) fun c hc => ?_
    obtain ⟨parts, rfl, hr⟩ := exists_remains (by simp) hc
    have hname := hr.field "name" rfl (by decide) (.string name)
    have hty := hr.field "ty" rfl (by decide) ty.reads
    have hinit := hr.fieldOption "init" rfl (by decide) (Expr.reads_option h)
    rw [ofJson?]
    exact (bind_of_some hname).trans <| (bind_of_some hty).trans (bind_of_some hinit)
  | .assign target op value, h => by
    obtain ⟨ht, hv⟩ := List.forall_mem_append.1 h
    refine .variant (not_omittable (tag_not_mem _) rfl) fun c hc => ?_
    obtain ⟨parts, rfl, hr⟩ := exists_remains (by simp) hc
    have htarget := hr.field "target" rfl (by decide) (target.reads ht)
    have hop := hr.field "op" rfl (by decide) (.named op)
    have hvalue := hr.field "value" rfl (by decide) (value.reads hv)
    rw [ofJson?]
    exact (bind_of_some htarget).trans <| (bind_of_some hop).trans (bind_of_some hvalue)
  | .expr value, h => by
    refine .variant (not_omittable (tag_not_mem _) rfl) fun c hc => ?_
    rw [ofJson?]
    exact bind_of_some ((value.reads h).read c hc)
  | .branch condition yes no, h => by
    obtain ⟨hcond, h1⟩ := List.forall_mem_append.1 h
    obtain ⟨hthen, helse⟩ := List.forall_mem_append.1 h1
    refine .variant (not_omittable (tag_not_mem _) rfl) fun c hc => ?_
    rw [contents_eq, optionalContents_eq] at hc
    obtain ⟨parts, rfl, hr⟩ := exists_remains (by simp) hc
    have hcondition := hr.field "condition" rfl (by decide) (condition.reads hcond)
    have hyes := hr.field "then" rfl (by decide) (.each (reads_all yes hthen))
    have hno := hr.fieldOption "otherwise" rfl (by decide) (reads_option no helse)
    rw [ofJson?]
    exact (bind_of_some hcondition).trans <| (bind_of_some hyes).trans (bind_of_some hno)
  | .forLoop init condition step body, h => by
    obtain ⟨hi, h1⟩ := List.forall_mem_append.1 h
    obtain ⟨hcond, h2⟩ := List.forall_mem_append.1 h1
    obtain ⟨hs, hb⟩ := List.forall_mem_append.1 h2
    refine .variant (not_omittable (tag_not_mem _) rfl) fun c hc => ?_
    rw [contents_eq, contents_eq, contents_eq] at hc
    obtain ⟨parts, rfl, hr⟩ := exists_remains (by simp) hc
    have hinit := hr.field "init" rfl (by decide) (.each (reads_all init hi))
    have hcondition := hr.fieldOption "condition" rfl (by decide) (Expr.reads_option hcond)
    have hstep := hr.field "step" rfl (by decide) (.each (reads_all step hs))
    have hbody := hr.field "body" rfl (by decide) (.each (reads_all body hb))
    rw [ofJson?]
    exact (bind_of_some hinit).trans <| (bind_of_some hcondition).trans <|
      (bind_of_some hstep).trans (bind_of_some hbody)
  | .whileLoop condition body, h => by
    obtain ⟨hcond, hb⟩ := List.forall_mem_append.1 h
    refine .variant (not_omittable (tag_not_mem _) rfl) fun c hc => ?_
    rw [contents_eq] at hc
    obtain ⟨parts, rfl, hr⟩ := exists_remains (by simp) hc
    have hcondition := hr.field "condition" rfl (by decide) (condition.reads hcond)
    have hbody := hr.field "body" rfl (by decide) (.each (reads_all body hb))
    rw [ofJson?]
    exact (bind_of_some hcondition).trans (bind_of_some hbody)
  | .doLoop body condition, h => by
    obtain ⟨hb, hcond⟩ := List.forall_mem_append.1 h
    refine .variant (not_omittable (tag_not_mem _) rfl) fun c hc => ?_
    rw [contents_eq] at hc
    obtain ⟨parts, rfl, hr⟩ := exists_remains (by simp) hc
    have hbody := hr.field "body" rfl (by decide) (.each (reads_all body hb))
    have hcondition := hr.field "condition" rfl (by decide) (condition.reads hcond)
    rw [ofJson?]
    exact (bind_of_some hbody).trans (bind_of_some hcondition)
  | .switch selector cases default, h => by
    obtain ⟨hs, h1⟩ := List.forall_mem_append.1 h
    obtain ⟨hcs, hd⟩ := List.forall_mem_append.1 h1
    refine .variant (not_omittable (tag_not_mem _) rfl) fun c hc => ?_
    rw [caseContents_eq, optionalContents_eq] at hc
    obtain ⟨parts, rfl, hr⟩ := exists_remains (by simp) hc
    have hselector := hr.field "selector" rfl (by decide) (selector.reads hs)
    have hcases := hr.field "cases" rfl (by decide) (.each (reads_cases cases hcs))
    have hdefault := hr.fieldOption "default" rfl (by decide) (reads_option default hd)
    rw [ofJson?]
    exact (bind_of_some hselector).trans <| (bind_of_some hcases).trans (bind_of_some hdefault)
  | .ret value, h => by
    refine .variant ?_ fun c hc => ?_
    · rintro (⟨-, hreturn⟩ | hmem)
      · exact hreturn rfl
      · exact tag_not_mem (.ret value) (List.mem_map_of_mem hmem)
    · rw [ofJson?]
      exact bind_of_some (read_of_trims_optional (Expr.reads_option h) hc)
  | .leave, _ => .plain (by rw [ofJson?]; rfl)
  | .next, _ => .plain (by rw [ofJson?]; rfl)
  | .block body, h => by
    refine .variant (not_omittable (tag_not_mem _) rfl) fun c hc => ?_
    rw [contents_eq] at hc
    rw [ofJson?]
    exact bind_of_some ((Reads.each (reads_all body h)).read c hc)
  | .host construct, _ => by
    refine .variant (not_omittable (tag_not_mem _) rfl) fun c hc => ?_
    rw [ofJson?]
    exact bind_of_some ((Reads.string construct).read c hc)

theorem reads_all {float : Binary32 → Json} : (body : List Stmt) →
    (∀ x ∈ floatsAll body, Binary32.ofJson? number (float x) = some x) →
      ∀ s ∈ body, Reads (Stmt.ofJson? number) (s.toJson float) s
  | [], _ => by simp
  | s :: rest, h => by
    obtain ⟨hs, hrest⟩ := List.forall_mem_append.1 h
    exact List.forall_mem_cons.2 ⟨reads s hs, reads_all rest hrest⟩

theorem reads_option {float : Binary32 → Json} : (o : Option (List Stmt)) →
    (∀ x ∈ floatsOption o, Binary32.ofJson? number (float x) = some x) → ∀ body, o = some body →
      Reads (fun j => j.each fun p => Stmt.ofJson? number p.1) (.list (toJson float) body) body
  | none, _ => nofun
  | some body, h => by
    rintro _ ⟨⟩
    exact .each (reads_all body h)

theorem reads_cases {float : Binary32 → Json} : (cases : List Case) →
    (∀ x ∈ floatsCases cases, Binary32.ofJson? number (float x) = some x) →
      ∀ c ∈ cases, Reads (caseOfJson? number) (caseJson float c) c
  | [], _ => by simp
  | .mk labels body :: rest, h => by
    obtain ⟨hl, hbr⟩ := List.forall_mem_append.1 h
    obtain ⟨hb, hrest⟩ := List.forall_mem_append.1 hbr
    refine List.forall_mem_cons.2 ⟨.object (by simp) fun members hr => ?_, reads_cases rest hrest⟩
    have hlabels := hr.field "labels" rfl (by decide) (.each (Expr.reads_all labels hl))
    have hbody := hr.field "body" rfl (by decide) (.each (reads_all body hb))
    rw [caseOfJson?]
    exact (bind_of_some hlabels).trans (bind_of_some hbody)

end

end Stmt

end Surface

end Shading
