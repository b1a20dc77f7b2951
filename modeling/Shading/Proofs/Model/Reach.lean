import Shading.Proofs.Model.Mention

/-!
# What a model contains

A model contains what its entry points reach, and nothing else (`Model.Exact`,
`exact_of_build`): its functions are those the entry points call, directly or
not, and for each stage the usage lists the functions that the stage's entry point
calls, the resources they refer to and the structs they need.

The functions come from one search over the whole set and the usages from one
search over the call graph for each stage, so both are compared with one closure
(`Program.Calls`).
-/

namespace Shading

/-- A usage lists what an entry point reaches, and nothing else. -/
structure Usage.Exact (p : Program) (entry : String) (u : Usage) : Prop where
  functions : ∀ name, name ∈ u.functions ↔ Closure p.Calls (· = entry) name
  resources : ∀ name, name ∈ u.resources ↔ p.Refers entry name
  structs : ∀ name, name ∈ u.structs ↔ Closure p.Embeds (p.Needs entry) name

/-- A model contains what the entry points of a set reach, and nothing else. -/
structure Model.Exact (p : Program) (set : EntrySet) (m : Model) : Prop where
  /-- The functions are those that the entry points call, directly or not. -/
  functions : ∀ name, name ∈ m.functions.map (·.qualifiedName) ↔
    Closure p.Calls (fun n => ∃ stage, set.entryName? stage = some n) name
  functions_once : (m.functions.map (·.qualifiedName)).Nodup
  /-- Every function is what its declaration stands for. -/
  hasFunction : ∀ f ∈ m.functions, p.HasFunction f.qualifiedName f
  /-- There is one usage for each stage with an entry point. -/
  stages : m.usage.map Prod.fst = set.stages
  usage : ∀ stage entry, set.entryName? stage = some entry → (m.usageOf stage).Exact p entry
  /-- The resources are those of the stages, each once. -/
  resources : ∀ name, name ∈ m.resources.map (·.name) ↔
    ∃ stage ∈ set.stages, name ∈ (m.usageOf stage).resources
  resources_once : (m.resources.map (·.name)).Nodup
  hasResource : ∀ b ∈ m.resources, p.HasResource b.name b.ty
  /-- The structs are those of the stages, each once. -/
  structs : ∀ name, name ∈ m.structs.map (·.name) ↔
    ∃ stage ∈ set.stages, name ∈ (m.usageOf stage).structs
  structs_once : (m.structs.map (·.name)).Nodup
  hasStruct : ∀ d ∈ m.structs, p.HasStruct d.name d

namespace Program

variable {p : Program}

/-! ## Functions -/

theorem orderFunctions_eq_ok {reached : Expanded Function} {entries : List String}
    {functions : List Function} (h : orderFunctions reached entries = .ok functions) :
    ∃ names, (callGraph reached).order entries = .ok names ∧
      functions = names.filterMap reached.get? := by
  rw [orderFunctions] at h
  split at h
  · cases h
  · next names hnames =>
    cases h
    exact ⟨names, hnames, rfl⟩

section Functions

variable {entries : List String} {reached : Expanded Function} {functions : List Function}

/-- An order of the functions reached names all that the entry points call. -/
theorem mem_order_callGraph_iff (h : Explored p.expandFunction (· ∈ entries) [] reached)
    {names : List String} (ho : (callGraph reached).order entries = .ok names) {name : String} :
    name ∈ names ↔ Closure p.Calls (· ∈ entries) name :=
  (Graph.mem_order_iff ho).trans (closure_callGraph_iff h fun _ => id)

/-- Ordered functions have the names that the order puts in order. -/
theorem names_of_orderFunctions (h : Explored p.expandFunction (· ∈ entries) [] reached)
    (ho : orderFunctions reached entries = .ok functions) :
    (callGraph reached).order entries = .ok (functions.map (·.qualifiedName)) := by
  obtain ⟨names, hnames, rfl⟩ := orderFunctions_eq_ok ho
  rw [hnames, map_filterMap_eq]
  intro name hname
  have hreached := (mem_reached_iff h).2 ((mem_order_callGraph_iff h hnames).1 hname)
  obtain ⟨⟨key, f⟩, hentry, rfl⟩ := List.mem_map.1 hreached
  obtain ⟨next, he⟩ := h.expanded _ hentry
  have hf := (expandFunction_eq_ok.1 he).1
  exact ⟨f, (get?_reached_iff h).2 ⟨hreached, hf⟩, hf.qualifiedName_eq⟩

/-- Ordered functions are what their declarations stand for. -/
theorem hasFunction_of_orderFunctions (h : Explored p.expandFunction (· ∈ entries) [] reached)
    (ho : orderFunctions reached entries = .ok functions) {f : Function} (hf : f ∈ functions) :
    p.HasFunction f.qualifiedName f := by
  obtain ⟨names, -, rfl⟩ := orderFunctions_eq_ok ho
  obtain ⟨name, -, hget⟩ := List.mem_filterMap.1 hf
  have hname := ((get?_reached_iff h).1 hget).2
  rwa [hname.qualifiedName_eq]

/-- The functions on a list of ordered ones that an entry point reaches are those that
it runs. -/
theorem mem_own_iff (h : Explored p.expandFunction (· ∈ entries) [] reached)
    (ho : orderFunctions reached entries = .ok functions) {entry : String}
    (he : entry ∈ entries) {f : Function} :
    f ∈ functions.filter (fun f => f.qualifiedName ∈ (callGraph reached).reach entry) ↔
      p.Runs entry f := by
  have hseed : ∀ n, n = entry → n ∈ entries := fun n hn => hn ▸ he
  simp only [List.mem_filter, decide_eq_true_eq, Graph.mem_reach_iff,
    closure_callGraph_iff h hseed]
  constructor
  · intro h
    obtain ⟨hf, hreach⟩ := h
    exact ⟨_, hreach, hasFunction_of_orderFunctions h ho hf⟩
  · intro h
    obtain ⟨name, hreach, hf⟩ := h
    obtain rfl := hf.qualifiedName_eq
    refine ⟨?_, hreach⟩
    have hmem := (mem_order_callGraph_iff h (names_of_orderFunctions h ho)).2
      (hreach.of_seeds fun n hn => .seed (hseed n hn))
    obtain ⟨g, hg, hname⟩ := List.mem_map.1 hmem
    have hg' := hasFunction_of_orderFunctions h ho hg
    rw [hname] at hg'
    rwa [hf.unique hg']

end Functions

/-! ## Stages -/

/-- What a stage uses: what its entry point reaches, elaborated. -/
structure Using (p : Program) (stage : Stage) (entry : String) (u : StageUse) : Prop where
  stage_eq : u.stage = stage
  functions : ∀ name, name ∈ u.functions ↔ Closure p.Calls (· = entry) name
  resources : ∀ name, name ∈ u.resources.map Prod.fst ↔ p.Refers entry name
  hasResource : ∀ r ∈ u.resources, p.HasResource r.1 r.2
  structs : ∀ name, name ∈ u.structs.map Prod.fst ↔ Closure p.Embeds (p.Needs entry) name
  structs_once : (u.structs.map Prod.fst).Nodup
  hasStruct : ∀ entry ∈ u.structs, p.HasStruct entry.1 entry.2

theorem using_of_stageUse {entries : List String} {reached : Expanded Function}
    {functions : List Function} (h : Explored p.expandFunction (· ∈ entries) [] reached)
    (ho : orderFunctions reached entries = .ok functions) {stage : Stage} {entry : String}
    (he : entry ∈ entries) {u : StageUse}
    (hu : p.stageUse (callGraph reached) functions stage entry = .ok u) :
    p.Using stage entry u := by
  simp only [stageUse, bind_eq_ok, pure_eq_ok] at hu
  obtain ⟨resources, hresources, structs, hstructs, rfl⟩ := hu
  have hused := mapM_eq_ok_iff.1 hresources
  have hnames : ∀ name, name ∈ resources.map Prod.fst ↔ p.Refers entry name := by
    intro name
    have hfst : resources.map Prod.fst = _ :=
      map_eq_of_forall₂ (f := id) hused fun _ _ hr => (usedResource_eq_ok.1 hr).2
    rw [hfst, List.map_id, List.mem_eraseDups, List.mem_flatMap]
    simp only [mem_own_iff h ho he, Core.mem_resourcesOf_iff, Refers]
  have hresource : ∀ r ∈ resources, p.HasResource r.1 r.2 := by
    intro r hr
    obtain ⟨name, -, hr⟩ := forall₂_of_mem_right hused hr
    obtain ⟨hr, rfl⟩ := usedResource_eq_ok.1 hr
    exact hr
  refine ⟨rfl, ?_, hnames, hresource, ?_, (explored_of_reachedStructs hstructs).once, ?_⟩
  · intro name
    have hseed : ∀ n, n = entry → n ∈ entries := fun n hn => hn ▸ he
    exact Graph.mem_reach_iff.trans (closure_callGraph_iff h hseed)
  · intro name
    refine (mem_reachedStructs_iff hstructs).trans (Closure.congr ?_ fun _ _ _ => .rfl)
    intro s
    rw [List.mem_eraseDups, List.mem_append, List.mem_flatMap, List.mem_flatMap]
    simp only [mem_own_iff h ho he, Function.mem_structs_iff]
    constructor
    · intro h
      rcases h with ⟨f, hf, hm⟩ | ⟨r, hr, hm⟩
      · exact .function hf hm
      · cases hel : r.2.element with
        | none => simp [hel] at hm
        | some element =>
          exact .element ((hnames _).1 (List.mem_map_of_mem hr)) (hresource r hr) hel
            (Ty.mem_structs_iff.1 (by simpa [hel] using hm))
    · intro h
      rcases h with ⟨hf, hm⟩ | ⟨href, hres, hel, hm⟩
      · exact .inl ⟨_, hf, hm⟩
      · obtain ⟨r, hr, rfl⟩ := List.mem_map.1 ((hnames _).2 href)
        obtain rfl := hres.unique (hresource r hr)
        exact .inr ⟨r, hr, by simpa [hel, Ty.mem_structs_iff] using hm⟩
  · exact hasStruct_of_reachedStructs hstructs

section Uses

variable {set : EntrySet} {reached : Expanded Function} {functions : List Function}
  {uses : List StageUse}
  (h : Explored p.expandFunction (· ∈ set.entries.map Prod.snd) [] reached)
  (ho : orderFunctions reached (set.entries.map Prod.snd) = .ok functions)
  (hu : List.Forall₂ (fun e u => p.stageUse (callGraph reached) functions e.1 e.2 = .ok u)
    set.entries uses)

include h ho hu

/-- Every entry point has what its stage uses. -/
theorem exists_using_of_entry {stage : Stage} {entry : String}
    (he : (stage, entry) ∈ set.entries) : ∃ u ∈ uses, p.Using stage entry u := by
  obtain ⟨u, hmem, huse⟩ := forall₂_of_mem_left hu he
  exact ⟨u, hmem, using_of_stageUse h ho (List.mem_map_of_mem he) huse⟩

theorem exists_entry_of_use {u : StageUse} (hmem : u ∈ uses) :
    ∃ stage entry, (stage, entry) ∈ set.entries ∧ p.Using stage entry u := by
  obtain ⟨⟨stage, entry⟩, he, huse⟩ := forall₂_of_mem_right hu hmem
  exact ⟨stage, entry, he, using_of_stageUse h ho (List.mem_map_of_mem he) huse⟩

theorem hasResource_uses : ∀ r ∈ uses.flatMap StageUse.resources, p.HasResource r.1 r.2 := by
  intro r hr
  obtain ⟨u, hmem, hr⟩ := List.mem_flatMap.1 hr
  obtain ⟨_, _, -, huse⟩ := exists_entry_of_use h ho hu hmem
  exact huse.hasResource r hr

/-- The stages use the resources that their entry points refer to. -/
theorem mem_resources_uses_iff {name : String} :
    name ∈ (uses.flatMap StageUse.resources).map Prod.fst ↔ p.Reaches set name := by
  simp only [List.map_flatMap, List.mem_flatMap]
  constructor
  · rintro ⟨u, hmem, hname⟩
    obtain ⟨stage, entry, he, huse⟩ := exists_entry_of_use h ho hu hmem
    exact ⟨stage, entry, EntrySet.mem_entries.1 he, (huse.resources name).1 hname⟩
  · rintro ⟨stage, entry, he, href⟩
    obtain ⟨u, hmem, huse⟩ := exists_using_of_entry h ho hu (EntrySet.mem_entries.2 he)
    exact ⟨u, hmem, (huse.resources name).2 href⟩

end Uses

/-! ## Structs of a model -/

section Structs

variable {table : StructTable}

theorem get?_structs_iff (h : ∀ entry ∈ table, p.HasStruct entry.1 entry.2) {name : String}
    {d : StructDef} : table.get? name = some d ↔ name ∈ table.map Prod.fst ∧ p.HasStruct name d :=
  lookup_eq_some_iff_of_unique (R := p.HasStruct) h fun _ _ _ => HasStruct.unique

/-- The graph of structs holds what their fields mention. -/
theorem depends_structGraph_iff (h : ∀ entry ∈ table, p.HasStruct entry.1 entry.2)
    {a b : String} (ha : a ∈ table.map Prod.fst) :
    (structGraph table).Depends a b ↔ p.Embeds a b := by
  obtain ⟨⟨key, d⟩, hentry, rfl⟩ := List.mem_map.1 ha
  have hd : p.HasStruct key d := h _ hentry
  have hlookup : (structGraph table).lookup key = some d.dependencies := by
    rw [structGraph]
    rw [lookup_map StructDef.dependencies table key]
    exact congrArg _ ((get?_structs_iff h).2 ⟨ha, hd⟩)
  simp only [Graph.Depends, Graph.next, hlookup, Option.getD_some,
    StructDef.mem_dependencies_iff, Embeds]
  constructor
  · exact fun hb => ⟨d, hd, hb⟩
  · intro h
    obtain ⟨e, he, hb⟩ := h
    rwa [hd.unique he]

theorem isSome_get?_structs_iff (h : ∀ entry ∈ table, p.HasStruct entry.1 entry.2) {name : String} :
    (table.get? name).isSome = true ↔ name ∈ table.map Prod.fst := by
  rw [Option.isSome_iff_exists]
  constructor
  · exact fun hn => ((get?_structs_iff h).1 hn.choose_spec).1
  · intro hn
    obtain ⟨⟨key, d⟩, hentry, rfl⟩ := List.mem_map.1 hn
    exact ⟨d, (get?_structs_iff h).2 ⟨hn, h _ hentry⟩⟩

/-- The names of a table are those of declarations that it has. -/
theorem mem_declared_iff (h : ∀ entry ∈ table, p.HasStruct entry.1 entry.2) {name : String} :
    name ∈ (p.structs.map (·.name)).filter (fun name => (table.get? name).isSome) ↔
      name ∈ table.map Prod.fst := by
  rw [List.mem_filter, isSome_get?_structs_iff h]
  refine ⟨And.right, fun hn => ⟨?_, hn⟩⟩
  obtain ⟨⟨key, d⟩, hentry, rfl⟩ := List.mem_map.1 hn
  obtain ⟨decl, hdecl, -⟩ := h _ hentry
  have hmem := List.mem_map_of_mem (f := (·.name)) (List.mem_of_find?_eq_some hdecl)
  rwa [name_of_struct? hdecl] at hmem

theorem orderStructs_eq_ok {structs : List StructDef} (h : p.orderStructs table = .ok structs) :
    ∃ names, (structGraph table).order
        ((p.structs.map (·.name)).filter fun name => (table.get? name).isSome) = .ok names ∧
      structs = names.filterMap table.get? := by
  unfold orderStructs at h
  simp only at h
  split at h
  · cases h
  · next names hnames =>
    cases h
    exact ⟨names, hnames, rfl⟩

section Ordered

variable (h : ∀ entry ∈ table, p.HasStruct entry.1 entry.2)
  (hc : ∀ a ∈ table.map Prod.fst, ∀ b, p.Embeds a b → b ∈ table.map Prod.fst)

include h hc

/-- An order of the structs of a table without loose ends names all of them. -/
theorem mem_order_structGraph_iff {names : List String}
    (ho : (structGraph table).order
      ((p.structs.map (·.name)).filter fun name => (table.get? name).isSome) = .ok names)
    {name : String} : name ∈ names ↔ name ∈ table.map Prod.fst := by
  rw [Graph.mem_order_iff ho]
  constructor
  · intro hn
    refine hn.least (S := fun n => n ∈ table.map Prod.fst) (fun n => (mem_declared_iff h).1) ?_
    exact fun a b ha hab => hc a ha b ((depends_structGraph_iff h ha).1 hab)
  · exact fun hn => .seed ((mem_declared_iff h).2 hn)

/-- Ordered structs have the names that the order puts in order. -/
theorem order_of_orderStructs {structs : List StructDef} (ho : p.orderStructs table = .ok structs) :
    (structGraph table).order
        ((p.structs.map (·.name)).filter fun name => (table.get? name).isSome) =
      .ok (structs.map (·.name)) := by
  obtain ⟨names, hnames, rfl⟩ := orderStructs_eq_ok ho
  rw [hnames, map_filterMap_eq]
  intro name hname
  have htable := (mem_order_structGraph_iff h hc hnames).1 hname
  obtain ⟨⟨key, d⟩, hentry, rfl⟩ := List.mem_map.1 htable
  have hd : p.HasStruct key d := h _ hentry
  exact ⟨d, (get?_structs_iff h).2 ⟨htable, hd⟩, hd.name_eq⟩

/-- Ordered structs are those of a table without loose ends, each once and behind the
structs it mentions. -/
theorem names_of_orderStructs {structs : List StructDef} (ho : p.orderStructs table = .ok structs) :
    (structGraph table).Ordered (structs.map (·.name)) ∧
      (∀ name, name ∈ structs.map (·.name) ↔ name ∈ table.map Prod.fst) ∧
      ∀ d ∈ structs, p.HasStruct d.name d := by
  have horder := order_of_orderStructs h hc ho
  refine ⟨Graph.ordered_of_order horder, fun name => mem_order_structGraph_iff h hc horder, ?_⟩
  intro d hd
  obtain ⟨names, -, rfl⟩ := orderStructs_eq_ok ho
  obtain ⟨name, -, hname⟩ := List.mem_filterMap.1 hd
  have hd := ((get?_structs_iff h).1 hname).2
  rwa [hd.name_eq]

end Ordered

end Structs

/-! ## Resources of a model -/

section Bind

variable {types : List (String × ResourceTy)} {decls : List (ResourceDecl × Slot)}

/-- A bound resource has one of the given types. -/
theorem mem_of_mem_bind {b : Binding} (h : b ∈ bind types decls) : (b.name, b.ty) ∈ types := by
  induction decls generalizing types with
  | nil => cases h
  | cons entry decls ih =>
    obtain ⟨d, slot⟩ := entry
    simp only [bind] at h
    split at h
    · exact ih h
    · next ty hty =>
      rcases List.mem_cons.1 h with rfl | h
      · obtain ⟨before, after, rfl, -⟩ := List.lookup_eq_some_iff.1 hty
        simp
      · exact (List.mem_filter.1 (ih h)).1

/-- The resources bound are those with a type and a declaration. -/
theorem mem_names_bind {name : String} : name ∈ (bind types decls).map (·.name) ↔
    name ∈ types.map Prod.fst ∧ ∃ entry ∈ decls, entry.1.name = name := by
  induction decls generalizing types with
  | nil => simp [bind]
  | cons entry decls ih =>
    obtain ⟨d, slot⟩ := entry
    simp only [bind, List.mem_cons, exists_eq_or_imp]
    split
    · next hnone =>
      rw [ih]
      have hd : d.name ∉ types.map Prod.fst := by
        intro hmem
        obtain ⟨e, he, hname⟩ := List.mem_map.1 hmem
        simpa [hname] using List.lookup_eq_none_iff.1 hnone e he
      grind
    · next ty hty =>
      have hd : d.name ∈ types.map Prod.fst := by
        obtain ⟨before, after, rfl, -⟩ := List.lookup_eq_some_iff.1 hty
        simp
      simp only [List.map_cons, List.mem_cons, ih, List.mem_map, List.mem_filter,
        decide_eq_true_eq] at hd ⊢
      grind

/-- Every resource is bound once. -/
theorem nodup_names_bind : ((bind types decls).map (·.name)).Nodup := by
  induction decls generalizing types with
  | nil => exact .nil
  | cons entry decls ih =>
    obtain ⟨d, slot⟩ := entry
    simp only [bind]
    split
    · exact ih
    · refine List.nodup_cons.2 ⟨fun hmem => ?_, ih⟩
      obtain ⟨e, he, hname⟩ := List.mem_map.1 (mem_names_bind.1 hmem).1
      simpa [hname] using (List.mem_filter.1 he).2

end Bind

/-- Every declaration has a slot, so no declared resource is lost. -/
theorem mem_names_bind_slots {types : List (String × ResourceTy)}
    (h : ∀ r ∈ types, p.HasResource r.1 r.2) {name : String} :
    name ∈ (bind types (p.resources.zip (assignSlots p.resources))).map (·.name) ↔
      name ∈ types.map Prod.fst := by
  refine mem_names_bind.trans (and_iff_left_of_imp fun hname => ?_)
  obtain ⟨r, hr, rfl⟩ := List.mem_map.1 hname
  obtain ⟨d, hd, -⟩ := h r hr
  have hzip : (p.resources.zip (assignSlots p.resources)).map Prod.fst = p.resources :=
    List.map_fst_zip (by simp)
  have hdecl := List.mem_of_find?_eq_some hd
  rw [← hzip] at hdecl
  obtain ⟨entry, hentry, hfst⟩ := List.mem_map.1 hdecl
  exact ⟨entry, hentry, hfst ▸ name_of_resource? hd⟩

/-! ## The model -/

namespace BuiltFrom

variable {set : EntrySet} {m : Model} {reached : Expanded Function} {uses : List StageUse}

/-- Every entry point has what its stage uses. -/
theorem using_of_entry (h : BuiltFrom p set m reached uses) {stage : Stage} {entry : String}
    (he : (stage, entry) ∈ set.entries) : ∃ u ∈ uses, p.Using stage entry u :=
  exists_using_of_entry h.explored h.functions h.used he

theorem entry_of_use (h : BuiltFrom p set m reached uses) {u : StageUse} (hu : u ∈ uses) :
    ∃ stage entry, (stage, entry) ∈ set.entries ∧ p.Using stage entry u :=
  exists_entry_of_use h.explored h.functions h.used hu

/-- There is one usage for each stage with an entry point. -/
theorem stages_usage (h : BuiltFrom p set m reached uses) :
    m.usage.map Prod.fst = set.stages := by
  rw [h.usage, List.map_map, EntrySet.stages]
  refine map_eq_of_forall₂ h.used fun e u hu => ?_
  simp only [stageUse, bind_eq_ok, pure_eq_ok] at hu
  obtain ⟨_, -, _, -, rfl⟩ := hu
  rfl

theorem usageOf_eq (h : BuiltFrom p set m reached uses) {u : StageUse} (hu : u ∈ uses) :
    m.usageOf u.stage = u.usage := by
  have hlookup : m.usage.lookup u.stage = some u.usage := by
    rw [lookup_eq_some_iff_mem (h.stages_usage ▸ set.nodup_stages), h.usage]
    exact List.mem_map.2 ⟨u, hu, rfl⟩
  simp [Model.usageOf, hlookup]

/-- What a stage with an entry point uses is recorded as its usage. -/
theorem usage_of_entry (h : BuiltFrom p set m reached uses) {stage : Stage} {entry : String}
    (he : set.entryName? stage = some entry) :
    ∃ u ∈ uses, p.Using stage entry u ∧ m.usageOf stage = u.usage := by
  obtain ⟨u, hu, huse⟩ := h.using_of_entry (EntrySet.mem_entries.2 he)
  exact ⟨u, hu, huse, huse.stage_eq ▸ h.usageOf_eq hu⟩

theorem hasStruct_table (h : BuiltFrom p set m reached uses) :
    ∀ entry ∈ uses.flatMap StageUse.structs, p.HasStruct entry.1 entry.2 := by
  intro entry hentry
  obtain ⟨u, hu, hentry⟩ := List.mem_flatMap.1 hentry
  obtain ⟨_, _, -, huse⟩ := h.entry_of_use hu
  exact huse.hasStruct entry hentry

theorem mem_table_iff (h : BuiltFrom p set m reached uses) {name : String} :
    name ∈ (uses.flatMap StageUse.structs).map Prod.fst ↔
      ∃ stage ∈ set.stages, name ∈ (m.usageOf stage).structs := by
  simp only [List.map_flatMap, List.mem_flatMap]
  constructor
  · intro h
    obtain ⟨u, hu, hname⟩ := h
    obtain ⟨stage, entry, he, huse⟩ := h.entry_of_use hu
    refine ⟨stage, List.mem_map_of_mem he, ?_⟩
    rwa [← huse.stage_eq, h.usageOf_eq hu]
  · intro h
    obtain ⟨stage, hstage, hname⟩ := h
    obtain ⟨⟨_, entry⟩, he, rfl⟩ := List.mem_map.1 hstage
    obtain ⟨u, hu, -, husage⟩ := h.usage_of_entry (EntrySet.mem_entries.1 he)
    exact ⟨u, hu, by rwa [husage] at hname⟩

/-- The structs that the stages use have no loose ends. -/
theorem table_closed (h : BuiltFrom p set m reached uses) :
    ∀ a ∈ (uses.flatMap StageUse.structs).map Prod.fst, ∀ b, p.Embeds a b →
      b ∈ (uses.flatMap StageUse.structs).map Prod.fst := by
  intro a ha b hab
  obtain ⟨entry, hentry, rfl⟩ := List.mem_map.1 ha
  obtain ⟨u, hu, hmem⟩ := List.mem_flatMap.1 hentry
  obtain ⟨_, _, -, huse⟩ := h.entry_of_use hu
  have hb := (huse.structs b).2 (.next ((huse.structs _).1 (List.mem_map_of_mem hmem)) hab)
  obtain ⟨entry', hentry', rfl⟩ := List.mem_map.1 hb
  exact List.mem_map_of_mem (List.mem_flatMap.2 ⟨u, hu, hentry'⟩)

/-- The structs of a model are ordered, and they are those of its stages. -/
theorem names_structs (h : BuiltFrom p set m reached uses) :
    (structGraph (uses.flatMap StageUse.structs)).Ordered (m.structs.map (·.name)) ∧
      (∀ name, name ∈ m.structs.map (·.name) ↔
        name ∈ (uses.flatMap StageUse.structs).map Prod.fst) ∧
      ∀ d ∈ m.structs, p.HasStruct d.name d :=
  names_of_orderStructs h.hasStruct_table h.table_closed h.structs

/-- The resources of a model are those that the entry points refer to. -/
theorem mem_resources_iff_reaches (h : BuiltFrom p set m reached uses) {name : String} :
    name ∈ m.resources.map (·.name) ↔ p.Reaches set name := by
  have hhas := hasResource_uses h.explored h.functions h.used
  rw [h.resources, mem_names_bind_slots hhas, mem_resources_uses_iff h.explored h.functions h.used]

/-- The resources of a model are those of its stages. -/
theorem mem_resources_iff (h : BuiltFrom p set m reached uses) {name : String} :
    name ∈ m.resources.map (·.name) ↔
      ∃ stage ∈ set.stages, name ∈ (m.usageOf stage).resources := by
  rw [h.mem_resources_iff_reaches]
  constructor
  · rintro ⟨stage, entry, he, href⟩
    obtain ⟨u, -, huse, husage⟩ := h.usage_of_entry he
    refine ⟨stage, List.mem_map_of_mem (EntrySet.mem_entries.2 he), ?_⟩
    rw [husage]
    exact (huse.resources name).2 href
  · rintro ⟨stage, hstage, hname⟩
    obtain ⟨⟨_, entry⟩, he, rfl⟩ := List.mem_map.1 hstage
    obtain ⟨u, -, huse, husage⟩ := h.usage_of_entry (EntrySet.mem_entries.1 he)
    rw [husage] at hname
    exact ⟨_, entry, EntrySet.mem_entries.1 he, (huse.resources name).1 hname⟩

/-- A model that was built contains what its entry points reach. -/
theorem model_exact (h : BuiltFrom p set m reached uses) : m.Exact p set where
  functions := by
    intro name
    rw [mem_order_callGraph_iff h.explored (names_of_orderFunctions h.explored h.functions)]
    refine Closure.congr (fun n => ?_) fun _ _ _ => .rfl
    simp [List.mem_map, EntrySet.mem_entries]
  functions_once :=
    (Graph.ordered_of_order (names_of_orderFunctions h.explored h.functions)).nodup
  hasFunction := fun f hf => hasFunction_of_orderFunctions h.explored h.functions hf
  stages := h.stages_usage
  usage := by
    intro stage entry he
    obtain ⟨u, -, huse, husage⟩ := h.usage_of_entry he
    rw [husage]
    exact ⟨huse.functions, huse.resources, huse.structs⟩
  resources := fun name => h.mem_resources_iff
  resources_once := h.resources ▸ nodup_names_bind
  hasResource := by
    intro b hb
    rw [h.resources] at hb
    exact hasResource_uses h.explored h.functions h.used _ (mem_of_mem_bind hb)
  structs := fun name => (h.names_structs.2.1 name).trans h.mem_table_iff
  structs_once := h.names_structs.1.nodup
  hasStruct := h.names_structs.2.2

end BuiltFrom

/-- Building makes a model that contains what its entry points reach, and nothing
else. -/
theorem exact_of_build {set : EntrySet} {m : Model} (h : p.build set = .ok m) :
    m.Exact p set := by
  obtain ⟨_, _, hbuilt⟩ := builtFrom_of_build h
  exact hbuilt.model_exact

theorem exact_sample : ∃ m, sample.build sampleSet = .ok m ∧ m.Exact sample sampleSet := by
  have h : sample.build sampleSet = .ok _ := rfl
  exact ⟨_, h, exact_of_build h⟩

end Program

end Shading
