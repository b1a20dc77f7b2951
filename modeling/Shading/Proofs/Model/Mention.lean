import Shading.Proofs.Elaboration.Calls

/-!
# What declarations refer to

A function calls functions, refers to resources and mentions structs.  A struct
embeds structs in its fields.  The relations here say so by the places where a
name can stand.  What an entry point reaches is the closure of these relations
(`Closure`).
-/

namespace Shading

/-! ## Mentions of structs -/

/-- A type mentions a struct: it is the struct, or its elements mention it. -/
inductive Ty.Mentions (name : String) : Ty → Prop where
  | struct : Mentions name (.struct name)
  | array {element length} : Mentions name element → Mentions name (.array element length)
  | elements {kind element access} :
      Mentions name element → Mentions name (.resourceOf kind element access)

theorem Ty.mem_structs_iff {name : String} {ty : Ty} : name ∈ ty.structs ↔ ty.Mentions name := by
  constructor
  · intro h
    induction ty with
    | struct n => obtain rfl := List.mem_singleton.1 h; exact .struct
    | array element length ih => exact .array (ih h)
    | resourceOf kind element access ih => exact .elements (ih h)
    | _ => simp [structs] at h
  · intro h
    induction h with
    | struct => simp [structs]
    | array _ ih => exact ih
    | elements _ ih => exact ih

/-- A type that stands in a function mentions a struct. -/
inductive Function.Mentions (f : Function) (name : String) : Prop where
  | result : f.result.Mentions name → f.Mentions name
  | param {param : Parameter} : param ∈ f.params → param.ty.Mentions name → f.Mentions name
  | declared {x ty init} :
      (Core.Stmt.declare x ty init).OccursIn f.body → ty.Mentions name → f.Mentions name
  | expr {e : Core.Expr} : e.OccursIn f.body → e.ty.Mentions name → f.Mentions name

theorem Function.mem_structs_iff {name : String} {f : Function} :
    name ∈ f.structs ↔ f.Mentions name := by
  simp only [structs, types, List.mem_flatMap, List.mem_cons, List.mem_append, List.mem_map,
    Core.mem_declaredTypes_iff, Core.mem_exprsOf_iff, Ty.mem_structs_iff]
  constructor
  · intro h
    obtain ⟨ty, rfl | (⟨param, hparam, rfl⟩ | ⟨x, init, hd⟩) | ⟨e, he, rfl⟩, hm⟩ := h
    · exact .result hm
    · exact .param hparam hm
    · exact .declared hd hm
    · exact .expr he hm
  · intro h
    rcases h with hm | ⟨hparam, hm⟩ | ⟨hd, hm⟩ | ⟨he, hm⟩
    · exact ⟨_, .inl rfl, hm⟩
    · exact ⟨_, .inr (.inl (.inl ⟨_, hparam, rfl⟩)), hm⟩
    · exact ⟨_, .inr (.inl (.inr ⟨_, _, hd⟩)), hm⟩
    · exact ⟨_, .inr (.inr ⟨_, he, rfl⟩), hm⟩

/-- A field type of a struct mentions a struct. -/
def StructDef.Mentions (d : StructDef) (name : String) : Prop :=
  ∃ field ∈ d.fields, field.ty.Mentions name

theorem StructDef.mem_dependencies_iff {name : String} {d : StructDef} :
    name ∈ d.dependencies ↔ d.Mentions name := by
  simp [dependencies, Mentions, List.mem_flatMap, Ty.mem_structs_iff]

/-! ## What names reach -/

namespace Program

variable {p : Program}

/-- A call of `b` occurs in the code of the function `a`. -/
def Calls (p : Program) (a b : String) : Prop :=
  ∃ f, p.HasFunction a f ∧ ∃ args ty, (Core.Expr.call b args ty).OccursIn f.body

/-- A field of the struct `a` mentions the struct `b`. -/
def Embeds (p : Program) (a b : String) : Prop := ∃ d, p.HasStruct a d ∧ d.Mentions b

/-- A function that an entry point runs: itself, or one it calls directly or not. -/
def Runs (p : Program) (entry : String) (f : Function) : Prop :=
  ∃ name, Closure p.Calls (· = entry) name ∧ p.HasFunction name f

/-- A resource that a function refers to which an entry point runs. -/
def Refers (p : Program) (entry resource : String) : Prop :=
  ∃ f, p.Runs entry f ∧ ∃ ty, (Core.Expr.resource resource ty).OccursIn f.body

/-- A resource that an entry point of a set refers to. -/
def Reaches (p : Program) (set : EntrySet) (resource : String) : Prop :=
  ∃ stage entry, set.entryName? stage = some entry ∧ p.Refers entry resource

/-- A struct that an entry point needs for its functions and resources. -/
inductive Needs (p : Program) (entry name : String) : Prop where
  | function {f : Function} : p.Runs entry f → f.Mentions name → p.Needs entry name
  | element {resource : String} {r : ResourceTy} {element : Ty} : p.Refers entry resource →
      p.HasResource resource r → r.element = some element → element.Mentions name →
      p.Needs entry name

theorem leads_expandFunction_iff {a b : String} : Leads p.expandFunction a b ↔ p.Calls a b := by
  simp only [Leads, Calls, expandFunction_eq_ok]
  constructor
  · intro h
    obtain ⟨f, _, ⟨hf, rfl⟩, hb⟩ := h
    exact ⟨f, hf, hf.mem_callees_iff.1 hb⟩
  · intro h
    obtain ⟨f, hf, hb⟩ := h
    exact ⟨f, _, ⟨hf, rfl⟩, hf.mem_callees_iff.2 hb⟩

theorem leads_expandStruct_iff {a b : String} : Leads p.expandStruct a b ↔ p.Embeds a b := by
  simp only [Leads, Embeds, expandStruct_eq_ok]
  constructor
  · intro h
    obtain ⟨d, _, ⟨hd, rfl⟩, hb⟩ := h
    exact ⟨d, hd, StructDef.mem_dependencies_iff.1 hb⟩
  · intro h
    obtain ⟨d, hd, hb⟩ := h
    exact ⟨d, _, ⟨hd, rfl⟩, StructDef.mem_dependencies_iff.2 hb⟩

/-! ## The call graph -/

section CallGraph

variable {entries : List String} {reached : Expanded Function}

theorem mem_reached_iff (h : Explored p.expandFunction (· ∈ entries) [] reached) {name : String} :
    name ∈ reached.map Prod.fst ↔ Closure p.Calls (· ∈ entries) name :=
  h.mem_iff.trans (Closure.congr (fun _ => .rfl) fun _ _ _ => leads_expandFunction_iff)

theorem get?_reached_iff {seed : String → Prop} {pending : List String}
    (h : Explored p.expandFunction seed pending reached) {name : String} {f : Function} :
    reached.get? name = some f ↔ name ∈ reached.map Prod.fst ∧ p.HasFunction name f := by
  refine lookup_eq_some_iff_of_unique (R := p.HasFunction) (fun entry hentry => ?_) fun _ _ _ =>
    HasFunction.unique
  obtain ⟨next, he⟩ := h.expanded entry hentry
  exact (expandFunction_eq_ok.1 he).1

/-- The call graph holds the calls of the functions that were reached. -/
theorem depends_callGraph_iff (h : Explored p.expandFunction (· ∈ entries) [] reached)
    {a b : String} (ha : a ∈ reached.map Prod.fst) :
    (callGraph reached).Depends a b ↔ p.Calls a b := by
  obtain ⟨⟨key, f⟩, hentry, rfl⟩ := List.mem_map.1 ha
  have hf : p.HasFunction key f := by
    obtain ⟨next, he⟩ := h.expanded _ hentry
    exact (expandFunction_eq_ok.1 he).1
  have hlookup : (callGraph reached).lookup key = some f.callees := by
    rw [callGraph]
    rw [lookup_map Function.callees reached key]
    exact congrArg _ ((get?_reached_iff h).2 ⟨ha, hf⟩)
  simp only [Graph.Depends, Graph.next, hlookup, Option.getD_some, hf.mem_callees_iff, Calls]
  constructor
  · exact fun hb => ⟨f, hf, hb⟩
  · intro h
    obtain ⟨g, hg, hb⟩ := h
    rwa [hf.unique hg]

/-- What seeds among the entry points depend on is what they call, directly or not. -/
theorem closure_callGraph_iff (h : Explored p.expandFunction (· ∈ entries) [] reached)
    {seed : String → Prop} (hs : ∀ n, seed n → n ∈ entries) {name : String} :
    Closure (callGraph reached).Depends seed name ↔ Closure p.Calls seed name := by
  refine (Closure.congr (fun _ => .rfl) fun a b ha => ?_).symm
  refine (depends_callGraph_iff h ?_).symm
  exact (mem_reached_iff h).2 (ha.of_seeds fun n hn => .seed (hs n hn))

end CallGraph

/-! ## Structs that seeds lead to -/

theorem hasStruct_of_reachedStructs {seeds : List String} {structs : StructTable}
    (h : p.reachedStructs seeds = .ok structs) :
    ∀ entry ∈ structs, p.HasStruct entry.1 entry.2 := by
  intro entry hentry
  obtain ⟨next, he⟩ := (explored_of_reachedStructs h).expanded entry hentry
  exact (expandStruct_eq_ok.1 he).1

/-- The structs that seeds lead to are found. -/
theorem mem_reachedStructs_iff {seeds : List String} {structs : StructTable}
    (h : p.reachedStructs seeds = .ok structs) {name : String} :
    name ∈ structs.map Prod.fst ↔ Closure p.Embeds (· ∈ seeds) name :=
  (explored_of_reachedStructs h).mem_iff.trans
    (Closure.congr (fun _ => .rfl) fun _ _ _ => leads_expandStruct_iff)

end Program

end Shading
