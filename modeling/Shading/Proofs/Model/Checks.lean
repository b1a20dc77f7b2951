import Shading.Proofs.Model.Reach

/-!
# What the checks of entry points promise

Every entry point of a model has passed the checks of its stage
(`BuiltFrom.entry_checked`).  A parameter that passed is a builtin of the stage or
the struct that the stage reads (`Entry.Takes`), and a vertex stage returns a
position, alone or in a struct (`Entry.VertexReturns`).
-/

namespace Shading

/-! ## Interface structs -/

/-- The fields of a struct can cross a stage boundary. -/
structure StructDef.IsInterface (d : StructDef) : Prop where
  interface : ∀ field ∈ d.fields, field.ty.isInterface = true
  numeric : ∀ field ∈ d.fields, field.ty.scalarKind? ≠ some .bool
  carried : ∀ field ∈ d.fields, ∀ semantic, field.semantic = some semantic →
    semantic.isBuiltin = false

namespace Signature

theorem fieldFault?_eq_none {struct : String} {field : Field} :
    fieldFault? struct field = none ↔ field.ty.isInterface = true ∧
      field.ty.scalarKind? ≠ some .bool ∧
      ∀ semantic, field.semantic = some semantic → semantic.isBuiltin = false := by
  rw [fieldFault?]
  split
  · next h =>
    simp only [Bool.or_eq_true, Bool.not_eq_true', decide_eq_true_eq] at h
    rcases h with h | h <;> simp [h]
  · next h =>
    simp only [Bool.or_eq_true, Bool.not_eq_true', decide_eq_true_eq, not_or] at h
    simp [h.1, h.2, Option.filter_eq_none_iff]

namespace Entry

variable {e : Entry}

@[simp] theorem refuse_ne_ok {α : Type} {reason : SignatureFault} {a : α} :
    (e.refuse reason : Except Error α) ≠ .ok a := by simp [refuse]

@[simp] theorem require_eq_ok {reason : Option SignatureFault} {u : Unit} :
    e.require reason = .ok u ↔ reason = none := by
  cases reason <;> simp [require, refuse]

theorem interfaceStruct_eq_ok {name : String} {d : StructDef} :
    e.interfaceStruct name = .ok d ↔ e.structs.get? name = some d ∧ d.IsInterface := by
  have hfields : ∀ d : StructDef,
      d.fields.findSome? (fieldFault? name) = none ↔ d.IsInterface := by
    intro d
    simp only [List.findSome?_eq_none_iff, fieldFault?_eq_none]
    constructor
    · exact fun h => ⟨fun f hf => (h f hf).1, fun f hf => (h f hf).2.1, fun f hf => (h f hf).2.2⟩
    · exact fun h f hf => ⟨h.interface f hf, h.numeric f hf, h.carried f hf⟩
  rw [interfaceStruct]
  split
  · next hnone => simp [hnone]
  · next d' hd =>
    simp only [bind_eq_ok, pure_eq_ok, require_eq_ok, hfields, hd, Option.some.injEq]
    constructor
    · intro h
      obtain ⟨_, hi, rfl⟩ := h
      exact ⟨rfl, hi⟩
    · intro h
      obtain ⟨rfl, hi⟩ := h
      exact ⟨(), hi, rfl⟩

/-! ## Parameters -/

/-- What a parameter of an entry point is: a builtin, or the struct that the stage reads. -/
inductive Takes (e : Entry) (param : Parameter) : Prop where
  | builtin {semantic : Semantic} : param.builtin? = some semantic →
      semantic.builtinStage? = some e.stage → param.ty = builtinTy e.stage → e.Takes param
  | input {name : String} {d : StructDef} : param.builtin? = none → param.ty = .struct name →
      e.stage ≠ .compute → e.structs.get? name = some d → d.IsInterface → e.Takes param

theorem builtinFault?_eq_none {stage : Stage} {param : Parameter} {semantic : Semantic} :
    builtinFault? stage param semantic = none ↔
      semantic.builtinStage? = some stage ∧ param.ty = builtinTy stage := by
  rw [builtinFault?]
  split
  · next h => simp [h]
  · next h =>
    rw [not_not] at h
    simp [h]

theorem takes_of_checkParams {hasInput : Bool} {params : List Parameter} {u : Unit}
    (h : e.checkParams hasInput params = .ok u) :
    ∀ param ∈ params, param.passing = .input ∧ e.Takes param := by
  induction params generalizing hasInput with
  | nil => simp
  | cons param rest ih =>
    rw [List.forall_mem_cons]
    rw [checkParams] at h
    split at h
    · exact absurd h refuse_ne_ok
    · next hpassing =>
      rw [not_not] at hpassing
      split at h
      · next semantic hsemantic =>
        simp only [bind_eq_ok, require_eq_ok, builtinFault?_eq_none] at h
        obtain ⟨_, ⟨hstage, hty⟩, hrest⟩ := h
        exact ⟨⟨hpassing, .builtin hsemantic hstage hty⟩, ih hrest⟩
      · next hnone =>
        split at h
        · next name hname =>
          split at h
          · exact absurd h refuse_ne_ok
          · next hstage =>
            split at h
            · exact absurd h refuse_ne_ok
            · simp only [bind_eq_ok, interfaceStruct_eq_ok] at h
              obtain ⟨d, ⟨hd, hi⟩, hrest⟩ := h
              have hty : param.ty = .struct name := by
                cases hp : param.ty <;> simp_all [Ty.structName?]
              exact ⟨⟨hpassing, .input hnone hty hstage hd hi⟩, ih hrest⟩
        · exact absurd h refuse_ne_ok

/-- At most one parameter is taken for the struct that the stage reads. -/
theorem length_inputs_of_checkParams {hasInput : Bool} {params : List Parameter} {u : Unit}
    (h : e.checkParams hasInput params = .ok u) :
    (params.filter (·.builtin?.isNone)).length ≤ if hasInput then 0 else 1 := by
  induction params generalizing hasInput with
  | nil => simp
  | cons param rest ih =>
    rw [checkParams] at h
    split at h
    · exact absurd h refuse_ne_ok
    · split at h
      · next semantic hsemantic =>
        simp only [bind_eq_ok] at h
        obtain ⟨_, -, hrest⟩ := h
        simpa [hsemantic] using ih hrest
      · next hnone =>
        split at h
        · split at h
          · exact absurd h refuse_ne_ok
          · split at h
            · exact absurd h refuse_ne_ok
            · next hinput =>
              simp only [bind_eq_ok] at h
              obtain ⟨_, -, hrest⟩ := h
              simpa [hnone, hinput] using ih hrest
        · exact absurd h refuse_ne_ok

/-! ## Results -/

/-- What a vertex stage returns: a position, or a struct with one. -/
inductive VertexReturns (e : Entry) : Prop where
  | position : e.function.result = .float4 → e.VertexReturns
  | struct {name : String} {d : StructDef} : e.function.result = .struct name →
      e.structs.get? name = some d → d.IsInterface → positionFault? d = none →
      (∀ field ∈ d.fields, target? field = none) → e.VertexReturns

theorem vertexReturns_of_checkVertex {u : Unit} (h : e.checkVertex = .ok u) :
    e.VertexReturns := by
  rw [checkVertex] at h
  split at h
  · next name hresult =>
    simp only [bind_eq_ok, interfaceStruct_eq_ok, require_eq_ok] at h
    obtain ⟨d, ⟨hd, hi⟩, _, hposition, htarget⟩ := h
    refine .struct hresult hd hi hposition fun field hfield => ?_
    have := List.find?_eq_none.1 (Option.map_eq_none_iff.1 htarget) field hfield
    simpa using this
  · simp only [require_eq_ok, ite_eq_left_iff, reduceCtorEq, imp_false, not_not] at h
    exact .position h

/-- Fields that passed are written to targets of their own. -/
theorem nodup_targets_of_fault {struct : String} {written : List UInt32} {fields : List Field}
    (h : targetsFault? struct written fields = none) :
    (fields.filterMap target?).Nodup ∧ ∀ n ∈ fields.filterMap target?, n ∉ written := by
  induction fields generalizing written with
  | nil => simp
  | cons field rest ih =>
    simp only [targetsFault?] at h
    split at h
    · cases h
    · next n hn =>
      split at h
      · cases h
      · next hnew =>
        obtain ⟨hnodup, hwritten⟩ := ih h
        simp only [List.mem_cons, not_or] at hwritten
        rw [List.filterMap_cons_some hn]
        refine ⟨List.nodup_cons.2 ⟨fun hmem => (hwritten n hmem).1 rfl, hnodup⟩,
          List.forall_mem_cons.2 ⟨hnew, fun k hk => (hwritten k hk).2⟩⟩

/-- A fragment stage returns a struct whose fields go to targets of their own. -/
theorem nodup_targets_of_check {warnings : List Warning} (h : e.check = .ok warnings)
    (hs : e.stage = .fragment) {name : String} (hresult : e.function.result = .struct name) :
    ∃ d, e.structs.get? name = some d ∧ (d.fields.filterMap target?).Nodup := by
  simp only [check, hs, bind_eq_ok] at h
  obtain ⟨_, -, _, hfragment, -⟩ := h
  simp only [checkFragment, hresult, bind_eq_ok, interfaceStruct_eq_ok, require_eq_ok] at hfragment
  obtain ⟨d, ⟨hd, -⟩, htargets⟩ := hfragment
  exact ⟨d, hd, (nodup_targets_of_fault htargets).1⟩

/-! ## Entry points -/

/-- The checks of every stage check the parameters. -/
theorem checkParams_of_check {warnings : List Warning} (h : e.check = .ok warnings) :
    e.checkParams false e.function.params = .ok () := by
  rw [check] at h
  split at h
  all_goals
    simp only [bind_eq_ok, pure_eq_ok] at h
  · obtain ⟨_, hparams, -⟩ := h
    exact hparams
  · obtain ⟨_, hparams, -⟩ := h
    exact hparams
  · obtain ⟨_, -, _, hparams, -⟩ := h
    exact hparams

theorem takes_of_check {warnings : List Warning} (h : e.check = .ok warnings) :
    ∀ param ∈ e.function.params, param.passing = .input ∧ e.Takes param :=
  takes_of_checkParams (checkParams_of_check h)

/-- Of the parameters of an entry point that passed the checks, the struct is the one
without a builtin. -/
theorem builtin?_eq_none_iff {warnings : List Warning} (h : e.check = .ok warnings)
    {param : Parameter} (hparam : param ∈ e.function.params) :
    param.builtin? = none ↔ ∃ name, param.ty = .struct name := by
  obtain ⟨-, htakes⟩ := takes_of_check h param hparam
  cases htakes with
  | builtin hbuiltin _ hty =>
    rw [hbuiltin, hty]
    cases e.stage <;> simp [builtinTy, Ty.uint]
  | input hnone hty => simp [hnone, hty]

/-- At most one parameter of an entry point is a struct. -/
theorem length_structs {warnings : List Warning} (h : e.check = .ok warnings) :
    (e.function.params.filter (·.ty.structName?.isSome)).length ≤ 1 := by
  have hsame : e.function.params.filter (·.ty.structName?.isSome) =
      e.function.params.filter (·.builtin?.isNone) := by
    refine List.filter_congr fun param hparam => ?_
    rw [Bool.eq_iff_iff, Option.isNone_iff_eq_none, builtin?_eq_none_iff h hparam]
    cases param.ty <;> simp [Ty.structName?]
  rw [hsame]
  exact length_inputs_of_checkParams (checkParams_of_check h)

theorem vertexReturns_of_check {warnings : List Warning} (h : e.check = .ok warnings)
    (hs : e.stage = .vertex) : e.VertexReturns := by
  simp only [check, hs, bind_eq_ok] at h
  obtain ⟨_, -, _, hvertex, -⟩ := h
  exact vertexReturns_of_checkVertex hvertex

end Entry

end Signature

/-! ## Entry points of a model -/

theorem EntrySet.mem_stages_of_entryName? {set : EntrySet} {stage : Stage} {entry : String}
    (h : set.entryName? stage = some entry) : stage ∈ set.stages :=
  EntrySet.mem_stages.2 (Option.isSome_iff_exists.2 ⟨entry, h⟩)

namespace Program.BuiltFrom

variable {p : Program} {set : EntrySet} {m : Model} {reached : Expanded Function}
  {uses : List StageUse}

theorem entryFunction?_eq (h : BuiltFrom p set m reached uses) {stage : Stage} {entry : String}
    (he : set.entryName? stage = some entry) : m.entryFunction? stage = m.function? entry := by
  rw [Model.entryFunction?, h.entryPoints, he]
  rfl

/-- A function of the name of an entry point is found, and its declaration stands for it. -/
theorem entryFunction (h : BuiltFrom p set m reached uses) {stage : Stage} {entry : String}
    (he : set.entryName? stage = some entry) :
    ∃ f, m.entryFunction? stage = some f ∧ m.function? entry = some f ∧ f ∈ m.functions ∧
      p.HasFunction entry f := by
  have hname := (h.model_exact.functions entry).2 (.seed ⟨stage, he⟩)
  obtain ⟨f, hf, hfind, rfl⟩ := exists_find?_of_mem_map hname
  exact ⟨f, (h.entryFunction?_eq he).trans hfind, hfind, hf, h.model_exact.hasFunction f hf⟩

/-- A stage with an entry point passed its checks. -/
theorem stage_checked (h : BuiltFrom p set m reached uses) {stage : Stage} {entry : String}
    (he : set.entryName? stage = some entry) :
    ∃ u ∈ uses, u.stage = stage ∧ ∃ warnings,
      checkStage (uses.flatMap StageUse.structs) m.functions u entry = .ok warnings := by
  obtain ⟨u, hu, hmem⟩ := exists_mem_zip_map Prod.snd h.used (EntrySet.mem_entries.2 he)
  simp only [stageUse, bind_eq_ok, pure_eq_ok] at hu
  obtain ⟨_, -, _, -, rfl⟩ := hu
  exact ⟨_, (List.of_mem_zip hmem).1, rfl, h.stages _ entry hmem⟩

/-- The entry point of a stage passed the checks of the stage. -/
theorem entry_checked (h : BuiltFrom p set m reached uses) {stage : Stage} {entry : String}
    (he : set.entryName? stage = some entry) {f : Function} (hf : m.function? entry = some f) :
    ∃ warnings,
      Signature.Entry.check ⟨f, stage, uses.flatMap StageUse.structs⟩ = .ok warnings := by
  obtain ⟨u, -, rfl, _, hw⟩ := h.stage_checked he
  rw [checkStage] at hw
  simp only [show m.functions.find? (·.qualifiedName == entry) = some f from hf,
    bind_eq_ok, pure_eq_ok] at hw
  obtain ⟨w, hw, -⟩ := hw
  exact ⟨w, hw⟩

/-- The links of a vertex stage passed their checks. -/
theorem links_checked (h : BuiltFrom p set m reached uses) {vertex : Function}
    (hv : m.entryFunction? .vertex = some vertex) :
    checkVertexInput vertex (m.entryFunction? .fragment) = .ok () ∧
      ∀ fragment, m.entryFunction? .fragment = some fragment →
        checkVaryings (uses.flatMap StageUse.structs) vertex fragment = .ok () := by
  have hfind : ∀ stage, ((set.entryName? stage).bind fun name =>
      m.functions.find? (·.qualifiedName == name)) = m.entryFunction? stage := by
    intro stage
    rw [Model.entryFunction?, h.entryPoints]
    rfl
  have hlinks := h.links
  simp only [checkLinks, show set.vertex.bind _ = _ from hfind .vertex,
    show set.fragment.bind _ = _ from hfind .fragment, hv, bind_eq_ok] at hlinks
  obtain ⟨_, hinput, hvaryings⟩ := hlinks
  refine ⟨hinput, fun fragment hf => ?_⟩
  rwa [hf] at hvaryings

end Program.BuiltFrom

end Shading
