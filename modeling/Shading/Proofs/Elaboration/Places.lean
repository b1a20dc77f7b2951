import Shading.Proofs.Elaboration.Typing

/-!
# Places

Code writes expressions in three ways: it assigns to them, it increments or decrements
them, and it passes them to parameters that the callee writes (`Expr.WrittenIn`).  What
is written has to be a *place*: a chain of field, index and swizzle steps from a local
variable or from an element of a structured buffer bound for writing (`Expr.Place`).

The check of writes looks at the types on the way down a chain and not at where the
chain starts.  An expression whose type is that of a resource is the resource itself
(`Made.exists_resource`), so the check accepts places and nothing else
(`Made.writeFault?_eq_none_iff`), and no function writes what is protected
(`writesPlaces`).

Components are compared with the help of a table that has an entry for each of the four
components of a vector.  `Expr.tableFault?` is the check with this table, and it never
reads the table outside its bounds (`Made.tableFault?_eq`).
-/

namespace Shading.Core

/-! ## What is written -/

/-- An expression is written in a body, at any depth: it is assigned to, incremented or
decremented, or passed to a parameter that the callee writes. -/
inductive Expr.WrittenIn (p : Program) (body : List Stmt) (x : Expr) : Prop where
  | assigned {op value} : (Stmt.assign x op value).OccursIn body → x.WrittenIn p body
  | updated {op ty} : op.isMutating = true → (Expr.unary op x ty).OccursIn body →
      x.WrittenIn p body
  | passed {function args ty d param} : (Expr.call function args ty).OccursIn body →
      p.function? function = some d → (param, x) ∈ d.params.zip args →
      param.passing ≠ .input → x.WrittenIn p body

/-! ## What can be written -/

/-- A chain of field, index and swizzle steps that starts at a local variable or at an
element of a structured buffer bound for writing.  No swizzle repeats a component. -/
inductive Expr.Place (p : Program) : Expr → Prop where
  | var {name ty} : Place p (.var name ty)
  | element {name d buffer position ty} : p.resource? name = some d →
      d.kind = .structuredBuffer → d.access = .readWrite →
      Place p (.index (.resource name buffer) position ty)
  | field {base member ty} : Place p base → Place p (.field base member ty)
  | index {base position ty} : Place p base → Place p (.index base position ty)
  | swizzle {base components ty} : components.Nodup → Place p base →
      Place p (.swizzle base components ty)

/-- An expression is a part of the value of another: fields, elements and components of it
are taken on the way. -/
inductive Expr.LiesIn : Expr → Expr → Prop where
  | self {e} : LiesIn e e
  | field {base member ty e} : LiesIn base e → LiesIn (.field base member ty) e
  | index {base position ty e} : LiesIn base e → LiesIn (.index base position ty) e
  | swizzle {base components ty e} : LiesIn base e → LiesIn (.swizzle base components ty) e

/-- What code must not write: a resource that is no structured buffer bound for writing,
such as a uniform buffer, a constant, and every computed value. -/
inductive Expr.Protected (p : Program) : Expr → Prop where
  | resource {name d ty} : p.resource? name = some d →
      (d.kind = .structuredBuffer → d.access = .readOnly) → Protected p (.resource name ty)
  | literal {value ty} : Protected p (.literal value ty)
  | unary {op operand ty} : Protected p (.unary op operand ty)
  | binary {op lhs rhs ty} : Protected p (.binary op lhs rhs ty)
  | conditional {condition yes no ty} : Protected p (.conditional condition yes no ty)
  | call {function args ty} : Protected p (.call function args ty)
  | intrinsic {i args ty} : Protected p (.intrinsic i args ty)
  | construct {args ty} : Protected p (.construct args ty)
  | cast {operand ty} : Protected p (.cast operand ty)

/-- A place is no part of what is protected. -/
theorem Expr.Place.not_protected {p : Program} {x y : Expr} (hx : x.Place p) (h : x.LiesIn y) :
    ¬ y.Protected p := by
  induction hx with
  | var => cases h; nofun
  | element hd hk ha =>
    cases h with
    | self => nofun
    | index h =>
      cases h
      intro hy
      cases hy with
      | resource hd' hread =>
        obtain rfl := Option.some.inj (hd.symm.trans hd')
        simp [hread hk] at ha
  | field _ ih =>
    cases h with
    | self => nofun
    | field h => exact ih h
  | index _ ih =>
    cases h with
    | self => nofun
    | index h => exact ih h
  | swizzle _ _ ih =>
    cases h with
    | self => nofun
    | swizzle h => exact ih h

/-! ## The table of components -/

/-- Marks components in a table, one after the other.  The answer tells whether a component
is marked already.  There is none when a component has no entry in the table. -/
def repeats? (table : List Bool) : List UInt8 → Option Bool
  | [] => some false
  | c :: rest =>
    match table[c.toNat]? with
    | none => none
    | some true => some true
    | some false => repeats? (table.set c.toNat true) rest

/-- Why an expression cannot be written, with a table for the components of each swizzle.
There is no answer when a table is read outside its bounds. -/
def Expr.tableFault? : Expr → Option (Option ConstructFault)
  | .var _ _ => some none
  | .field base _ _ => base.tableFault?
  | .swizzle base components _ =>
    match repeats? (List.replicate 4 false) components with
    | none => none
    | some true => some (some .repeatedComponents)
    | some false => base.tableFault?
  | .index base _ _ =>
    match base.ty.resource? with
    | some r =>
      some (if r.isWritable then none else some (.readOnly (base.resourceName?.getD "resource")))
    | none => base.tableFault?
  | .resource name _ => some (some (.readOnly name))
  | _ => some (some .notAssignable)

/-- Components that have an entry in the table are told apart by it. -/
theorem exists_repeats? (table : List Bool) {components : List UInt8}
    (h : ∀ c ∈ components, c.toNat < table.length) :
    ∃ found, repeats? table components = some found ∧
      (found = false ↔ components.Nodup ∧ ∀ c ∈ components, table[c.toNat]? = some false) := by
  induction components generalizing table with
  | nil => exact ⟨false, rfl, by simp⟩
  | cons c rest ih =>
    obtain ⟨hc, hrest⟩ := List.forall_mem_cons.1 h
    have hentry := List.getElem?_eq_getElem hc
    rw [repeats?, hentry]
    cases hmark : table[c.toNat] with
    | true => exact ⟨true, rfl, by simp [hentry, hmark]⟩
    | false =>
      obtain ⟨found, hfound, hiff⟩ := ih (table.set c.toNat true) (by simpa using hrest)
      refine ⟨found, hfound, hiff.trans ?_⟩
      -- The components left are unmarked in the new table exactly when they are unmarked in
      -- the old one and differ from the component that was marked.
      have hset : ∀ k ∈ rest, (table.set c.toNat true)[k.toNat]? = some false ↔
          k ≠ c ∧ table[k.toNat]? = some false := by
        intro k hk
        rw [List.getElem?_set]
        by_cases hkc : k = c
        · subst hkc
          simp [hc]
        · have hne : c.toNat ≠ k.toNat := fun heq => hkc (UInt8.toNat_inj.1 heq).symm
          simp [hne, hkc]
      simp only [List.nodup_cons, List.forall_mem_cons, hentry, hmark, true_and]
      constructor
      · rintro ⟨hnodup, hmarks⟩
        have hmarks' := fun k hk => (hset k hk).1 (hmarks k hk)
        exact ⟨⟨fun hmem => (hmarks' c hmem).1 rfl, hnodup⟩, fun k hk => (hmarks' k hk).2⟩
      · rintro ⟨⟨hnew, hnodup⟩, hmarks⟩
        exact ⟨hnodup, fun k hk => (hset k hk).2 ⟨fun heq => hnew (heq ▸ hk), hmarks k hk⟩⟩

/-- A table with four entries tells whether the components of a vector repeat. -/
theorem repeats?_eq {components : List UInt8} (h : ∀ c ∈ components, c.toNat < 4) :
    repeats? (List.replicate 4 false) components = some (decide ¬ components.Nodup) := by
  obtain ⟨found, hfound, hiff⟩ := exists_repeats? (List.replicate 4 false) (by simpa using h)
  have hunmarked : ∀ c ∈ components, (List.replicate 4 false)[c.toNat]? = some false :=
    fun c hc => List.getElem?_replicate_of_lt (h c hc)
  rw [and_iff_left hunmarked] at hiff
  rw [hfound]
  cases found <;> simp_all

end Shading.Core

namespace Shading

theorem Ty.Plain.isResource_eq {p : Program} {ty : Ty} (h : ty.Plain p) : ty.isResource = false := by
  cases h <;> rfl

/-- A resource is of the kind and the access that it is declared with. -/
theorem Program.HasResource.exists_decl {p : Program} {name : String} {r : ResourceTy}
    (h : p.HasResource name r) :
    ∃ d, p.resource? name = some d ∧ d.kind = r.kind ∧ d.access = r.access := by
  obtain ⟨d, hd, hr⟩ := h
  simp only [elaborateResource, bind_eq_ok, pure_eq_ok] at hr
  obtain ⟨element, -, _, -, rfl⟩ := hr
  exact ⟨d, hd, rfl, rfl⟩

theorem ResourceTy.isWritable_iff {r : ResourceTy} :
    r.isWritable = true ↔ r.kind = .structuredBuffer ∧ r.access = .readWrite := by
  simp [ResourceTy.isWritable]

namespace Scope

open Shading.Core (Expr)

variable {s : Scope}

/-- A variable has the type that is written behind it. -/
theorem value_var {written : Surface.TypeExpr} {ty : Ty} (h : s.program.Denotes written ty)
    (name : String) : s.Value (.var name (some written)) (.var name ty) := by
  refine ⟨?_, h.plain.isResource_eq⟩
  simp only [operand, bind_eq_ok, pure_eq_ok, writtenType_eq_ok]
  exact ⟨ty, ⟨written, rfl, h⟩, rfl⟩

/-! ## What the check accepts -/

/-- What has the type of a resource is the resource. -/
theorem Made.exists_resource {e : Expr} (h : s.Made e) (hr : e.ty.isResource = true) :
    ∃ name r, e = .resource name r.toTy ∧ s.program.HasResource name r := by
  have hnot : ¬ e.ty.Plain s.program := by
    intro hplain
    simp [hplain.isResource_eq] at hr
  cases h with
  | source h =>
    cases elaborated_of_operand h with
    | @literal value => cases value <;> exact absurd .scalar hnot
    | var hty => exact absurd hty.plain hnot
    | uniform hres _ he => exact absurd (hres.declares.element he).1 hnot
    | resource hres _ => exact ⟨_, _, rfl, hres⟩
    | field _ _ _ _ hden => exact absurd hden.plain hnot
    | swizzle _ _ hcomponents =>
      obtain ⟨hpos, hle⟩ := Core.length_of_swizzle? hcomponents
      exact absurd (plain_swizzleTy hpos hle) hnot
    | matrixElement => exact absurd .scalar hnot
    | index hb _ _ hty =>
      exact absurd ((Ty.element_of_elementTy? hty).plain (Made.source hb).wellFormed) hnot
    | unary _ _ hty => exact absurd hty.plain hnot
    | binary _ _ _ hty => exact absurd hty.plain hnot
    | conditional _ _ _ hty => exact absurd hty.plain hnot
    | call _ _ _ _ hty => exact absurd hty.plain hnot
    | intrinsic _ _ _ _ hty => exact absurd (plain_of_intrinsicTy hty).1 hnot
    | construct hty => exact absurd hty.plain hnot
    | cast hty => exact absurd hty.plain hnot
    | enumValue => exact absurd .scalar hnot
  | row => exact absurd (.vector (by decide) (by decide)) hnot
  | position => exact absurd .scalar hnot
  | product ht => exact absurd ht.plain hnot

/-- The check of writes accepts places, and nothing else. -/
theorem Made.writeFault?_eq_none_iff {e : Expr} (h : s.Made e) :
    e.writeFault? = none ↔ e.Place s.program := by
  induction e using Expr.induct with
  | h e ih =>
    cases e with
    | var => simpa [Expr.writeFault?] using Expr.Place.var
    | field base member ty =>
      have hbase := ih base (by simp [Expr.children]) (h.of_child (by simp [Expr.children]))
      rw [Expr.writeFault?, hbase]
      exact ⟨.field, fun hp => by cases hp with | field hp => exact hp⟩
    | swizzle base components ty =>
      have hbase := ih base (by simp [Expr.children]) (h.of_child (by simp [Expr.children]))
      rw [Expr.writeFault?]
      constructor
      · intro hw
        split at hw
        · next hnodup => exact .swizzle hnodup (hbase.1 hw)
        · cases hw
      · intro hp
        cases hp with
        | swizzle hnodup hp => rw [if_pos hnodup, hbase.2 hp]
    | index base position ty =>
      have hmade : s.Made base := h.of_child (by simp [Expr.children])
      have hbase := ih base (by simp [Expr.children]) hmade
      rw [Expr.writeFault?]
      cases hr : base.ty.resource? with
      | none =>
        simp only [hbase]
        refine ⟨.index, fun hp => ?_⟩
        cases hp with
        | index hp => exact hp
        | element hd hk _ =>
          -- A structured buffer is of the type of a resource.
          cases hmade.typed with
          | uniform hres hu _ =>
            obtain ⟨d, hd', hkind, -⟩ := hres.exists_decl
            obtain rfl := Option.some.inj (hd.symm.trans hd')
            simp [hk, hu] at hkind
          | resource => simp [Expr.ty] at hr
      | some r =>
        obtain ⟨name, r', rfl, hres⟩ := hmade.exists_resource (by simp [Ty.isResource, hr])
        obtain rfl : r' = r := by simpa [Expr.ty] using hr
        obtain ⟨d, hd, hk, ha⟩ := hres.exists_decl
        simp only [ite_eq_left_iff, reduceCtorEq, imp_false, not_not, ResourceTy.isWritable_iff,
          ← hk, ← ha]
        constructor
        · rintro ⟨hkind, haccess⟩
          exact .element hd hkind haccess
        · intro hp
          cases hp with
          | element hd' hkind haccess =>
            obtain rfl := Option.some.inj (hd.symm.trans hd')
            exact ⟨hkind, haccess⟩
          | index hp => cases hp
    | _ =>
      constructor
      · intro hw
        cases hw
      · intro hp
        cases hp

/-- The check of writes never reads a table of components outside its bounds. -/
theorem Made.tableFault?_eq {e : Expr} (h : s.Made e) : e.tableFault? = some e.writeFault? := by
  induction e using Expr.induct with
  | h e ih =>
    cases e with
    | field base member ty =>
      rw [Expr.tableFault?, Expr.writeFault?]
      exact ih base (by simp [Expr.children]) (h.of_child (by simp [Expr.children]))
    | swizzle base components ty =>
      have hmade : s.Made base := h.of_child (by simp [Expr.children])
      have hcomponents : ∀ c ∈ components, c.toNat < 4 := by
        have hwell := hmade.wellFormed
        cases h.typed with
        | swizzle hty _ _ hlt =>
          rw [hty] at hwell
          cases hwell with
          | plain hplain =>
            cases hplain with
            | vector _ hsize =>
              intro c hc
              exact Nat.lt_of_lt_of_le (UInt8.lt_iff_toNat_lt.1 (hlt c hc))
                (UInt8.le_iff_toNat_le.1 hsize)
      rw [Expr.tableFault?, Expr.writeFault?, Core.repeats?_eq hcomponents]
      by_cases hnodup : components.Nodup
      · simpa [hnodup] using ih base (by simp [Expr.children]) hmade
      · simp [hnodup]
    | index base position ty =>
      rw [Expr.tableFault?, Expr.writeFault?]
      cases base.ty.resource? with
      | some r => rfl
      | none => exact ih base (by simp [Expr.children]) (h.of_child (by simp [Expr.children]))
    | _ => rfl

/-! ## What elaborated code writes -/

/-- What elaborated code writes was made by elaboration and passed the check. -/
theorem made_of_writtenIn {body : List Surface.Stmt} {code : List Core.Stmt}
    (h : s.stmts body = .ok code) {x : Expr} (hx : x.WrittenIn s.program code) :
    s.Made x ∧ x.writeFault? = none := by
  cases hx with
  | assigned hoccurs =>
    obtain ⟨a, ha⟩ := exists_elaborated_of_occursIn h hoccurs
    cases ha with
    | assign ht hw => exact ⟨ht.made, hw⟩
    | product ht hw => exact ⟨ht.made, hw⟩
  | updated hop he =>
    have hmade := made_of_occursIn h he
    refine ⟨hmade.of_child (by simp [Expr.children]), ?_⟩
    cases hmade with
    | source he =>
      cases elaborated_of_operand he with
      | unary _ hw _ => exact hw hop
  | passed he hd hmem hpassing =>
    have hmade := made_of_occursIn h he
    refine ⟨hmade.of_child (List.of_mem_zip hmem).2, ?_⟩
    cases hmade with
    | source he =>
      cases elaborated_of_operand he with
      | call hd' _ _ hps _ =>
        obtain rfl := Option.some.inj (hd.symm.trans hd')
        exact (List.forall₂_zip hps hmem).writable hpassing

end Scope

namespace Program

open Shading.Core (Expr)

/-- The code of a program writes places only, and writes are checked within the table. -/
structure WritesPlaces (p : Program) : Prop where
  place : ∀ d f, p.elaborateFunction d = .ok f →
    ∀ x : Expr, x.WrittenIn p f.body → x.Place p
  /-- What is written is no part of what is protected. -/
  apart : ∀ d f, p.elaborateFunction d = .ok f →
    ∀ x y : Expr, x.WrittenIn p f.body → x.LiesIn y → ¬ y.Protected p
  /-- Every expression that is elaborated, in whatever function, is checked with a table
  that has entries for all its components. -/
  table : ∀ symbol result e c, Scope.operand ⟨p, symbol, result⟩ e = .ok c →
    c.tableFault? = some c.writeFault?

/-- Elaborated functions write places only. -/
theorem writesPlaces (p : Program) : p.WritesPlaces := by
  have hplace : ∀ d f, p.elaborateFunction d = .ok f →
      ∀ x : Expr, x.WrittenIn p f.body → x.Place p := by
    intro d f h x hx
    obtain ⟨s, rfl, -, hbody⟩ := exists_scope_of_elaborateFunction h
    obtain ⟨hmade, hw⟩ := Scope.made_of_writtenIn hbody hx
    exact hmade.writeFault?_eq_none_iff.1 hw
  exact {
    place := hplace
    apart := fun d f h x y hx hy => (hplace d f h x hx).not_protected hy
    table := fun _ _ _ _ h => (Scope.Made.source h).tableFault?_eq }

end Program

end Shading
