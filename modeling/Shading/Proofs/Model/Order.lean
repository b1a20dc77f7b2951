import Shading.Proofs.Graph.BeforeUse
import Shading.Proofs.Model.Checks

/-!
# The order of a model

The functions of a model stand behind those they call, and the structs behind those
their fields mention.  The orders are found once for the whole model.  What a stage
reaches is closed under calls and mentions, so they hold for each stage, too
(`functionsFor_beforeUse`, `structsFor_beforeUse`).

All that a stage runs follows from its entry point, and nothing stands behind what is
called, so the entry point is the last (`functionsFor_eq`).
-/

namespace Shading

/-- A call of a function stands in the body of another. -/
def Function.Calls (f : Function) (name : String) : Prop :=
  ∃ args ty, (Core.Expr.call name args ty).OccursIn f.body

/-- A program declares the structs of a model behind the structs they mention.  A name
stands for its first declaration. -/
def Program.DeclaresInOrder (p : Program) (m : Model) : Prop :=
  ∀ before d after, p.structs = before ++ d :: after → d.name ∉ before.map (·.name) →
    d.name ∈ m.structs.map (·.name) →
      ∀ name, p.Embeds d.name name → name ∈ before.map (·.name)

/-- The functions of a stage are its helpers and then its entry point. -/
structure Model.EndsWith (m : Model) (stage : Stage) (f : Function) : Prop where
  entry : m.entryFunction? stage = some f
  isEntry : m.isEntry stage f = true
  functions : m.functionsFor stage =
    ((m.functionsFor stage).filter fun g => !m.isEntry stage g) ++ [f]

namespace Program.BuiltFrom

variable {p : Program} {set : EntrySet} {m : Model} {reached : Expanded Function}
  {uses : List StageUse}

/-! ## Stages -/

/-- A stage without an entry point reaches nothing. -/
theorem usageOf_of_none (h : BuiltFrom p set m reached uses) {stage : Stage}
    (hs : set.entryName? stage = none) : m.usageOf stage = ⟨[], [], []⟩ := by
  have hnone : m.usage.lookup stage = none := by
    refine List.lookup_eq_none_iff.2 fun entry hentry => ?_
    have hstage := List.mem_map_of_mem (f := Prod.fst) hentry
    rw [h.stages_usage, EntrySet.mem_stages] at hstage
    refine bne_iff_ne.2 fun heq => ?_
    rw [← heq, hs] at hstage
    cases hstage
  simp [Model.usageOf, hnone]

section Entry

variable {stage : Stage} {entry : String}

/-- The functions of a stage are those that its entry point runs. -/
theorem mem_functionsFor_iff (h : BuiltFrom p set m reached uses)
    (he : set.entryName? stage = some entry) {f : Function} :
    f ∈ m.functionsFor stage ↔ p.Runs entry f := by
  have hexact := (h.model_exact.usage stage entry he).functions
  simp only [Model.functionsFor, List.mem_filter, decide_eq_true_eq, hexact]
  constructor
  · intro hf
    exact ⟨_, hf.2, h.model_exact.hasFunction f hf.1⟩
  · intro hruns
    obtain ⟨name, hreach, hhas⟩ := hruns
    obtain rfl := hhas.qualifiedName_eq
    refine ⟨?_, hreach⟩
    have hname := (h.model_exact.functions _).2
      (hreach.of_seeds fun n hn => .seed ⟨stage, hn ▸ he⟩)
    obtain ⟨g, hg, hgf⟩ := List.mem_map.1 hname
    have hhas' := h.model_exact.hasFunction g hg
    rw [hgf] at hhas'
    rwa [hhas.unique hhas']

theorem mem_names_structsFor_iff (h : BuiltFrom p set m reached uses)
    (he : set.entryName? stage = some entry) {name : String} :
    name ∈ (m.structsFor stage).map (·.name) ↔ Closure p.Embeds (p.Needs entry) name := by
  rw [← (h.model_exact.usage stage entry he).structs]
  constructor
  · intro hname
    obtain ⟨d, hd, rfl⟩ := List.mem_map.1 hname
    exact of_decide_eq_true (List.mem_filter.1 hd).2
  · intro hname
    have hmodel := (h.model_exact.structs name).2
      ⟨stage, EntrySet.mem_stages_of_entryName? he, hname⟩
    obtain ⟨d, hd, rfl⟩ := List.mem_map.1 hmodel
    exact List.mem_map_of_mem (List.mem_filter.2 ⟨hd, decide_eq_true hname⟩)

theorem mem_names_resourcesFor_iff (h : BuiltFrom p set m reached uses)
    (he : set.entryName? stage = some entry) {name : String} :
    name ∈ (m.resourcesFor stage).map (·.name) ↔ p.Refers entry name := by
  rw [← (h.model_exact.usage stage entry he).resources]
  constructor
  · intro hname
    obtain ⟨b, hb, rfl⟩ := List.mem_map.1 hname
    exact of_decide_eq_true (List.mem_filter.1 hb).2
  · intro hname
    have hmodel := (h.model_exact.resources name).2
      ⟨stage, EntrySet.mem_stages_of_entryName? he, hname⟩
    obtain ⟨b, hb, rfl⟩ := List.mem_map.1 hmodel
    exact List.mem_map_of_mem (List.mem_filter.2 ⟨hb, decide_eq_true hname⟩)

/-- A function that is called where a stage runs is among the functions of the stage. -/
theorem exists_caller (h : BuiltFrom p set m reached uses)
    (he : set.entryName? stage = some entry) {a b : String}
    (ha : Closure p.Calls (· = entry) a) (hab : p.Calls a b) :
    ∃ f ∈ m.functionsFor stage, f.Calls b := by
  obtain ⟨f, hf, hcall⟩ := hab
  exact ⟨f, (h.mem_functionsFor_iff he).2 ⟨a, ha, hf⟩, hcall⟩

end Entry

/-- Every resource of a stage stands once. -/
theorem nodup_names_resourcesFor (h : BuiltFrom p set m reached uses) (stage : Stage) :
    ((m.resourcesFor stage).map (·.name)).Nodup :=
  h.model_exact.resources_once.sublist (List.filter_sublist.map _)

/-! ## Functions -/

theorem functions_beforeUse (h : BuiltFrom p set m reached uses) :
    DefinedBeforeUse (·.qualifiedName) Function.Calls m.functions := by
  have hnames := names_of_orderFunctions h.explored h.functions
  refine .of_ordered (Graph.ordered_of_order hnames) fun f hf name hcall => ?_
  have hreached := (mem_reached_iff h.explored).2
    ((mem_order_callGraph_iff h.explored hnames).1 (List.mem_map_of_mem hf))
  exact (depends_callGraph_iff h.explored hreached).2
    ⟨f, h.model_exact.hasFunction f hf, hcall⟩

/-- The functions of a stage stand behind those they call. -/
theorem functionsFor_beforeUse (h : BuiltFrom p set m reached uses) (stage : Stage) :
    DefinedBeforeUse (·.qualifiedName) Function.Calls (m.functionsFor stage) := by
  refine h.functions_beforeUse.filter fun f hf hreach g _ hcall => ?_
  rw [decide_eq_true_eq] at hreach ⊢
  cases he : set.entryName? stage with
  | none => simp [h.usageOf_of_none he] at hreach
  | some entry =>
    have hexact := (h.model_exact.usage stage entry he).functions
    exact (hexact _).2 (.next ((hexact _).1 hreach) ⟨f, h.model_exact.hasFunction f hf, hcall⟩)

/-- The entry point of a stage is the last of its functions. -/
theorem functionsFor_eq (h : BuiltFrom p set m reached uses) {stage : Stage} {entry : String}
    (he : set.entryName? stage = some entry) :
    ∃ helpers f, m.entryFunction? stage = some f ∧ f.qualifiedName = entry ∧
      m.functionsFor stage = helpers ++ [f] := by
  obtain ⟨f, hentry, -, -, hhas⟩ := h.entryFunction he
  have hruns : ∀ g, g ∈ m.functionsFor stage ↔ p.Runs entry g := fun _ =>
    h.mem_functionsFor_iff he
  have hf : f ∈ m.functionsFor stage := (hruns f).2 ⟨entry, .seed rfl, hhas⟩
  have hordered := h.functionsFor_beforeUse stage
  rcases List.eq_nil_or_concat' (m.functionsFor stage) with hnil | ⟨helpers, last, hlast⟩
  · simp [hnil] at hf
  · refine ⟨helpers, f, hentry, hhas.qualifiedName_eq, ?_⟩
    obtain ⟨name, hreach, hhas'⟩ := (hruns last).1 (hlast ▸ by simp)
    -- What is called does not stand last, so the last function is what the search starts from.
    cases hreach with
    | seed heq => rw [hlast, hhas'.unique (heq ▸ hhas)]
    | next ha hab =>
      obtain ⟨caller, hcaller, hcall⟩ := h.exists_caller he ha hab
      rw [hlast] at hordered hcaller
      exact absurd (hhas'.qualifiedName_eq ▸ hcall) (hordered.not_uses_last hcaller)

/-- The other functions of a stage are its helpers. -/
theorem endsWith (h : BuiltFrom p set m reached uses) {stage : Stage} {entry : String}
    (he : set.entryName? stage = some entry) {f : Function}
    (hf : m.entryFunction? stage = some f) : m.EndsWith stage f := by
  obtain ⟨helpers, g, hg, hname, hfunctions⟩ := h.functionsFor_eq he
  obtain rfl : g = f := Option.some.inj (hg.symm.trans hf)
  have hisEntry : ∀ g, m.isEntry stage g = decide (g.qualifiedName = entry) := by
    intro g
    simp only [Model.isEntry, h.entryPoints, he, Option.some.injEq, eq_comm]
  have hhelpers : ∀ g ∈ helpers, m.isEntry stage g = false := by
    intro g hg
    have hnodup := (h.functionsFor_beforeUse stage).once
    rw [hfunctions, List.map_append] at hnodup
    rw [hisEntry, decide_eq_false_iff_not, ← hname]
    exact (List.nodup_append.1 hnodup).2.2 _ (List.mem_map_of_mem hg) _ (by simp)
  refine ⟨hf, by simp [hisEntry, hname], ?_⟩
  rw [hfunctions, List.filter_append, List.filter_eq_self.2 (fun g hg => by simp [hhelpers g hg]),
    List.filter_eq_nil_iff.2 (by simp [hisEntry, hname]), List.append_nil]

/-! ## Structs -/

theorem structs_beforeUse (h : BuiltFrom p set m reached uses) :
    DefinedBeforeUse (·.name) StructDef.Mentions m.structs := by
  obtain ⟨hordered, hnames, hhas⟩ := h.names_structs
  refine .of_ordered hordered fun d hd name hm => ?_
  have htable := (hnames _).1 (List.mem_map_of_mem hd)
  exact (depends_structGraph_iff h.hasStruct_table htable).2 ⟨d, hhas d hd, hm⟩

/-- The structs of a stage stand behind those they mention. -/
theorem structsFor_beforeUse (h : BuiltFrom p set m reached uses) (stage : Stage) :
    DefinedBeforeUse (·.name) StructDef.Mentions (m.structsFor stage) := by
  refine h.structs_beforeUse.filter fun d hd hreach e _ hm => ?_
  rw [decide_eq_true_eq] at hreach ⊢
  cases he : set.entryName? stage with
  | none => simp [h.usageOf_of_none he] at hreach
  | some entry =>
    have hexact := (h.model_exact.usage stage entry he).structs
    exact (hexact _).2 (.next ((hexact _).1 hreach) ⟨d, h.model_exact.hasStruct d hd, hm⟩)

/-- No struct contains itself. -/
theorem not_transGen_embeds (h : BuiltFrom p set m reached uses) {d : StructDef}
    (hd : d ∈ m.structs) : ¬ Relation.TransGen p.Embeds d.name d.name := by
  intro hcycle
  refine h.structs_beforeUse.not_transGen d.name ?_
  -- What a struct of the model contains is in the model.
  have hstep : ∀ {a b : String}, a ∈ m.structs.map (·.name) → p.Embeds a b →
      ∃ e ∈ m.structs, e.name = a ∧ e.Mentions b := by
    intro a b ha hab
    obtain ⟨e, he, rfl⟩ := List.mem_map.1 ha
    obtain ⟨e', he', hm⟩ := hab
    exact ⟨e, he, rfl, (h.model_exact.hasStruct e he).unique he' ▸ hm⟩
  suffices hall : ∀ name, Relation.TransGen p.Embeds d.name name →
      Relation.TransGen (fun x y => ∃ e ∈ m.structs, e.name = x ∧ e.Mentions y) d.name name from
    hall _ hcycle
  intro name htrans
  induction htrans with
  | single hab => exact .single (hstep (List.mem_map_of_mem hd) hab)
  | tail _ hab ih =>
    obtain ⟨_, -, e, he, -, hm⟩ := Relation.TransGen.tail'_iff.1 ih
    exact ih.tail (hstep (h.structs_beforeUse.mem_of_uses he hm) hab)

/-- Structs that are declared in order keep their order. -/
theorem names_of_declaresInOrder (h : BuiltFrom p set m reached uses)
    (hd : p.DeclaresInOrder m) : m.structs.map (·.name) =
      ((p.structs.map (·.name)).filter fun name => name ∈ m.structs.map (·.name)).eraseDups := by
  have horder := order_of_orderStructs h.hasStruct_table h.table_closed h.structs
  have hnames := h.names_structs.2.1
  have hkept : (fun name => (StructTable.get? (uses.flatMap StageUse.structs) name).isSome) =
      fun name => decide (name ∈ m.structs.map (·.name)) := by
    funext name
    rw [Bool.eq_iff_iff, decide_eq_true_eq, isSome_get?_structs_iff h.hasStruct_table, hnames]
  rw [hkept] at horder
  refine Except.ok.inj (horder.symm.trans (Graph.order_of_behind ?_))
  intro before root after heq hroot name hdepends
  obtain ⟨front, rest, hsplit, rfl, hkeep⟩ := exists_split_of_filter heq
  rw [decide_eq_true_eq] at hkeep
  have hembeds := (depends_structGraph_iff h.hasStruct_table ((hnames root).1 hkeep)).1 hdepends
  have hmember : name ∈ m.structs.map (·.name) :=
    (hnames name).2 (h.table_closed root ((hnames root).1 hkeep) name hembeds)
  obtain ⟨decls, others, hstructs, rfl, hothers⟩ := List.map_eq_append_iff.1 hsplit
  obtain ⟨d, later, rfl, rfl, rfl⟩ := List.map_eq_cons_iff.1 hothers
  have hfirst : d.name ∉ decls.map (·.name) := fun hmem =>
    hroot (List.mem_filter.2 ⟨hmem, decide_eq_true hkeep⟩)
  refine List.mem_filter.2 ⟨hd decls d later hstructs hfirst hkeep name hembeds, ?_⟩
  exact decide_eq_true hmember

end Program.BuiltFrom

end Shading
