import Shading.Proofs.Model.Order
import Shading.Proofs.Model.Varyings

/-!
# The rules of the stages

A model that was built obeys the rules of its stages (`Model.ObeysStages`,
`obeysStages_of_build`).  The rules say what the parameters and the result of an
entry point may be, what crosses a stage boundary, and which intrinsics a stage can
call.

The checks look at names and walks.  Here the rules are said of the declarations that
the names stand for and of every place in the code that an entry point runs.  Code runs
in a stage when the entry point of the stage calls it, directly or not, and one function
may run in several stages.
-/

namespace Shading

/-! ## Interface structs -/

/-- A scalar or a vector of numbers. -/
inductive Ty.IsNumeric : Ty → Prop where
  | scalar {kind : ScalarKind} : kind ≠ .bool → IsNumeric (.scalar kind)
  | vector {kind : ScalarKind} {size : UInt8} : kind ≠ .bool → IsNumeric (.vector kind size)

theorem Ty.isNumeric_iff {ty : Ty} :
    ty.IsNumeric ↔ ty.isInterface = true ∧ ty.scalarKind? ≠ some .bool := by
  constructor
  · rintro (h | h) <;> simpa [isInterface, scalarKind?] using h
  · rintro ⟨hinterface, hkind⟩
    cases ty with
    | scalar => exact .scalar (by simpa [scalarKind?] using hkind)
    | vector => exact .vector (by simpa [scalarKind?] using hkind)
    | _ => simp [isInterface] at hinterface

theorem Ty.isVoid_iff {ty : Ty} : ty.isVoid = true ↔ ty = .void := by
  cases ty <;> simp [isVoid]

/-- A struct of the model with fields of numbers, none of them a builtin. -/
structure Model.HasInterface (m : Model) (name : String) (d : StructDef) : Prop where
  found : m.struct? name = some d
  numeric : ∀ field ∈ d.fields, field.ty.IsNumeric
  carried : ∀ field ∈ d.fields, ∀ semantic, field.semantic = some semantic →
    semantic.isBuiltin = false

/-! ## Signatures -/

/-- What a parameter of an entry point may be: a builtin of the stage, or a struct. -/
inductive Parameter.Fits (m : Model) (param : Parameter) : Stage → Prop where
  | vertexBuiltin {semantic : Semantic} : param.semantic = some semantic →
      semantic.builtinStage? = some .vertex → param.ty = .scalar .uint → param.Fits m .vertex
  | computeBuiltin {semantic : Semantic} : param.semantic = some semantic →
      semantic.builtinStage? = some .compute → param.ty = .vector .uint 3 → param.Fits m .compute
  | input {stage : Stage} {name : String} {d : StructDef} : stage ≠ .compute →
      param.builtin? = none → param.ty = .struct name → m.HasInterface name d → param.Fits m stage

/-- What an entry point may return.  A compute entry returns nothing and runs in groups with
threads in every dimension. -/
inductive Function.Returns (m : Model) (f : Function) : Stage → Prop where
  | position : f.result = .vector .float 4 → f.Returns m .vertex
  | vertex {name : String} {d : StructDef} {position : Field} : f.result = .struct name →
      m.HasInterface name d → d.fields.filter (·.semantic = some .systemPosition) = [position] →
      position.ty = .vector .float 4 →
      (∀ field ∈ d.fields, ∀ n, field.semantic ≠ some (.colorTarget n)) → f.Returns m .vertex
  | nothing : f.result = .void → f.Returns m .fragment
  | color : f.result = .vector .float 4 → f.Returns m .fragment
  | fragment {name : String} {d : StructDef} : f.result = .struct name → m.HasInterface name d →
      d.fields ≠ [] → (∀ field ∈ d.fields, ∃ n, field.semantic = some (.colorTarget n)) →
      (d.fields.map (·.semantic)).Nodup → f.Returns m .fragment
  | group {size : GroupSize} : f.result = .void → f.groupSize = some size →
      1 ≤ size.x → 1 ≤ size.y → 1 ≤ size.z → f.Returns m .compute

/-- The signature of an entry point fits its stage. -/
structure Function.Fits (m : Model) (f : Function) (stage : Stage) : Prop where
  params : ∀ param ∈ f.params, param.passing = .input ∧ param.Fits m stage
  /-- At most one parameter is a struct. -/
  one : (f.params.filter (·.ty.structName?.isSome)).length ≤ 1
  returns : f.Returns m stage

/-- A model obeys the rules of its stages. -/
structure Model.ObeysStages (p : Program) (set : EntrySet) (m : Model) : Prop where
  entries : ∀ stage entry, set.entryName? stage = some entry →
    ∃ f, m.entryFunction? stage = some f ∧ f.qualifiedName = entry ∧ f.Fits m stage
  /-- Only entry points receive builtins. -/
  helpers : ∀ f ∈ m.functions, (∀ stage, set.entryName? stage ≠ some f.qualifiedName) →
    ∀ param ∈ f.params, ∀ semantic, param.semantic = some semantic → semantic.isBuiltin = false
  /-- Derivatives run in fragment stages. -/
  derivatives : ∀ stage entry, set.entryName? stage = some entry → stage ≠ .fragment →
    ∀ f, p.Runs entry f → ∀ i args ty, (Core.Expr.intrinsic i args ty).OccursIn f.body →
      i.isDerivative = false
  /-- Barriers run in compute stages. -/
  barriers : ∀ stage entry, set.entryName? stage = some entry → stage ≠ .compute →
    ∀ f, p.Runs entry f → ∀ args ty, ¬ (Core.Expr.intrinsic .barrier args ty).OccursIn f.body
  /-- What vertices are read from is written by no stage. -/
  inputs : ∀ struct, .vertexInput ∈ m.roles struct →
    .vertexOutput ∉ m.roles struct ∧ .fragmentOutput ∉ m.roles struct

/-! ## Results -/

namespace Signature

/-- A struct that passed has one position. -/
theorem positionFault?_eq_none {d : StructDef} : positionFault? d = none ↔
    ∃ position, d.positions = [position] ∧ position.ty = .float4 := by
  rw [positionFault?]
  split
  · next position h => simp [h]
  · next h => simp [h]
  · next h _ =>
    simp only [reduceCtorEq, false_iff]
    rintro ⟨position, hposition, -⟩
    exact h position hposition

theorem target?_eq_some_iff {field : Field} {n : UInt32} :
    target? field = some n ↔ field.semantic = some (.colorTarget n) := by
  rw [target?]
  split
  · next h => simp [h]
  · next h =>
    simp only [reduceCtorEq, false_iff]
    exact h n

/-- Fields that passed carry render targets and nothing else. -/
theorem semantics_of_fault {struct : String} {written : List UInt32} {fields : List Field}
    (h : targetsFault? struct written fields = none) :
    fields.map (·.semantic) = (fields.filterMap target?).map fun n => some (.colorTarget n) := by
  induction fields generalizing written with
  | nil => rfl
  | cons field rest ih =>
    simp only [targetsFault?] at h
    split at h
    · cases h
    · next n hn =>
      split at h
      · cases h
      · rw [List.map_cons, List.filterMap_cons_some hn, List.map_cons, ih h,
          target?_eq_some_iff.1 hn]

theorem ne_nil_of_fault {struct : String} {fields : List Field}
    (h : targetsFault? struct [] fields = none) : fields ≠ [] := by
  rintro rfl
  cases h

/-- A compute entry that passed has threads in every dimension. -/
theorem Entry.exists_groupSize_of_checkGroup {e : Entry} {warnings : List Warning}
    (h : e.checkGroup = .ok warnings) :
    ∃ size, e.function.groupSize = some size ∧ 1 ≤ size.x ∧ 1 ≤ size.y ∧ 1 ≤ size.z := by
  rw [checkGroup] at h
  split at h
  · exact absurd h refuse_ne_ok
  · next size hsize =>
    split at h
    · exact absurd h refuse_ne_ok
    · next hempty =>
      simp only [GroupSize.hasEmptyDimension, Bool.or_eq_true, decide_eq_true_eq, not_or] at hempty
      obtain ⟨⟨hx, hy⟩, hz⟩ := hempty
      exact ⟨size, hsize, UInt32.pos_iff_ne_zero.2 hx, UInt32.pos_iff_ne_zero.2 hy,
        UInt32.pos_iff_ne_zero.2 hz⟩

end Signature

open Signature

/-! ## Intrinsics -/

theorem Intrinsic.isAvailable_iff {i : Intrinsic} {stage : Stage} : i.isAvailable stage = true ↔
    (i.isDerivative = true → stage = .fragment) ∧ (i = .barrier → stage = .compute) := by
  cases i <;> simp [isAvailable, isDerivative]

/-- A function that passed calls intrinsics of the stage, wherever the calls stand. -/
theorem isAvailable_of_checkIntrinsics {stage : Stage} {f : Function} {u : Unit}
    (h : checkIntrinsics stage f = .ok u) {i : Intrinsic} {args : List Core.Expr} {ty : Ty}
    (hi : (Core.Expr.intrinsic i args ty).OccursIn f.body) : i.isAvailable stage = true := by
  rw [checkIntrinsics] at h
  split at h
  · next hnone =>
    have hmem : i ∈ Core.intrinsicsOf f.body :=
      List.mem_filterMap.2 ⟨_, Core.mem_exprsOf_iff.2 hi, rfl⟩
    simpa using List.find?_eq_none.1 hnone i hmem
  · cases h

/-! ## Roles -/

/-- What vertices are read from is neither what the vertex stage returns nor what the
fragment stage returns. -/
theorem unwritten_of_checkVertexInput {vertex : Function} {fragment : Option Function} {u : Unit}
    (h : checkVertexInput vertex fragment = .ok u) {input : String}
    (hi : vertex.inputStruct? = some input) :
    vertex.result.structName? ≠ some input ∧
      ∀ f, fragment = some f → f.result.structName? ≠ some input := by
  simp only [checkVertexInput, hi] at h
  split at h
  · cases h
  · next hnot =>
    simp only [List.any_eq_true, List.mem_cons, Option.mem_toList, Option.map_eq_some_iff,
      decide_eq_true_eq, not_exists, not_and] at hnot
    exact ⟨hnot _ (.inl rfl), fun f hf => hnot _ (.inr ⟨f, hf, rfl⟩)⟩

namespace Program

variable {p : Program} {set : EntrySet} {m : Model}

/-- A stage that passed its checks calls intrinsics of its own. -/
theorem checkIntrinsics_of_checkStage {structs : StructTable} {functions : List Function}
    {u : StageUse} {entry : String} {warnings : List Warning}
    (h : checkStage structs functions u entry = .ok warnings) :
    (functions.filter fun f => f.qualifiedName ∈ u.functions).forM (checkIntrinsics u.stage) =
      .ok () := by
  rw [checkStage] at h
  split at h
  all_goals
    simp only [bind_eq_ok] at h
    obtain ⟨_, -, _, hchecks, -⟩ := h
    exact hchecks

namespace BuiltFrom

variable {reached : Expanded Function} {uses : List StageUse}

/-! ## Entry points -/

/-- A struct that a check looked up and took is an interface struct of the model. -/
theorem hasInterface (h : BuiltFrom p set m reached uses) {name : String} {d : StructDef}
    (hd : StructTable.get? (uses.flatMap StageUse.structs) name = some d) (hi : d.IsInterface) :
    m.HasInterface name d where
  found := h.struct?_of_get? hd
  numeric := fun field hfield =>
    Ty.isNumeric_iff.2 ⟨hi.interface field hfield, hi.numeric field hfield⟩
  carried := hi.carried

theorem fits_of_takes (h : BuiltFrom p set m reached uses) {f : Function} {stage : Stage}
    {param : Parameter}
    (ht : Entry.Takes ⟨f, stage, uses.flatMap StageUse.structs⟩ param) : param.Fits m stage := by
  cases ht with
  | builtin hsemantic hstage hty =>
    obtain ⟨hsemantic, -⟩ := Option.filter_eq_some_iff.1 hsemantic
    cases stage with
    | vertex => exact .vertexBuiltin hsemantic hstage hty
    | compute => exact .computeBuiltin hsemantic hstage hty
    | fragment => exact absurd hstage (Semantic.builtinStage?_ne_fragment _)
  | input hnone hty hstage hd hi => exact .input hstage hnone hty (h.hasInterface hd hi)

theorem returns_of_checkFragment (h : BuiltFrom p set m reached uses) {f : Function} {u : Unit}
    (hc : Entry.checkFragment ⟨f, .fragment, uses.flatMap StageUse.structs⟩ = .ok u) :
    f.Returns m .fragment := by
  rw [Entry.checkFragment] at hc
  split at hc
  · next name hresult =>
    simp only [bind_eq_ok, Entry.interfaceStruct_eq_ok, Entry.require_eq_ok] at hc
    obtain ⟨d, ⟨hd, hi⟩, htargets⟩ := hc
    have hsemantics := semantics_of_fault htargets
    refine .fragment hresult (h.hasInterface hd hi) (ne_nil_of_fault htargets) ?_ ?_
    · intro field hfield
      have hmem : field.semantic ∈ d.fields.map (·.semantic) := List.mem_map_of_mem hfield
      rw [hsemantics] at hmem
      obtain ⟨n, -, hn⟩ := List.mem_map.1 hmem
      exact ⟨n, hn.symm⟩
    · rw [hsemantics]
      exact (Entry.nodup_targets_of_fault htargets).1.map fun a b hab => by simpa using hab
  · simp only [Entry.require_eq_ok, ite_eq_left_iff, reduceCtorEq, imp_false, not_not] at hc
    exact hc.elim .nothing .color

theorem returns_of_check (h : BuiltFrom p set m reached uses) {f : Function} {stage : Stage}
    {warnings : List Warning}
    (hc : Entry.check ⟨f, stage, uses.flatMap StageUse.structs⟩ = .ok warnings) :
    f.Returns m stage := by
  cases stage with
  | vertex =>
    cases Entry.vertexReturns_of_check hc rfl with
    | position hresult => exact .position hresult
    | struct hresult hd hi hposition htarget =>
      obtain ⟨position, hposition, hty⟩ := positionFault?_eq_none.1 hposition
      refine .vertex hresult (h.hasInterface hd hi) hposition hty fun field hfield n hn => ?_
      exact absurd (target?_eq_some_iff.2 hn) (by simp [htarget field hfield])
  | fragment =>
    simp only [Entry.check, bind_eq_ok] at hc
    obtain ⟨_, -, _, hfragment, -⟩ := hc
    exact h.returns_of_checkFragment hfragment
  | compute =>
    simp only [Entry.check, bind_eq_ok, Entry.require_eq_ok, ite_eq_left_iff, reduceCtorEq,
      imp_false, not_not] at hc
    obtain ⟨_, hvoid, _, -, hgroup⟩ := hc
    obtain ⟨size, hsize, hx, hy, hz⟩ := Entry.exists_groupSize_of_checkGroup hgroup
    exact .group (Ty.isVoid_iff.1 hvoid) hsize hx hy hz

/-- The signature of an entry point fits its stage. -/
theorem fits_of_entry (h : BuiltFrom p set m reached uses) {stage : Stage} {entry : String}
    (he : set.entryName? stage = some entry) {f : Function} (hf : m.function? entry = some f) :
    f.Fits m stage := by
  obtain ⟨warnings, hcheck⟩ := h.entry_checked he hf
  refine ⟨fun param hparam => ?_, Entry.length_structs hcheck, h.returns_of_check hcheck⟩
  obtain ⟨hpassing, htakes⟩ := Entry.takes_of_check hcheck param hparam
  exact ⟨hpassing, h.fits_of_takes htakes⟩

/-! ## Intrinsics -/

/-- The intrinsics that the entry point of a stage runs are available in the stage. -/
theorem isAvailable_of_runs (h : BuiltFrom p set m reached uses) {stage : Stage} {entry : String}
    (he : set.entryName? stage = some entry) {f : Function} (hf : p.Runs entry f)
    {i : Intrinsic} {args : List Core.Expr} {ty : Ty}
    (hi : (Core.Expr.intrinsic i args ty).OccursIn f.body) : i.isAvailable stage = true := by
  obtain ⟨u, hu, rfl, warnings, hw⟩ := h.stage_checked he
  have hmem := (h.mem_functionsFor_iff he).2 hf
  rw [Model.functionsFor, h.usageOf_eq hu] at hmem
  exact isAvailable_of_checkIntrinsics (forM_eq_ok.1 (checkIntrinsics_of_checkStage hw) f hmem) hi

/-! ## Roles -/

/-- The struct that vertices are read from is no result. -/
theorem vertexInput_unwritten (h : BuiltFrom p set m reached uses) {struct : String}
    (hs : m.hasRole struct .vertexInput = true) :
    m.hasRole struct .vertexOutput = false ∧ m.hasRole struct .fragmentOutput = false := by
  simp only [Model.hasRole, Option.any_eq_true, decide_eq_true_eq] at hs
  obtain ⟨vertex, hvertex, hinput⟩ := hs
  obtain ⟨hown, hother⟩ := unwritten_of_checkVertexInput (h.links_checked hvertex).1 hinput
  simp only [Model.hasRole, hvertex, Option.any_some, Option.any_eq_false, decide_eq_false_iff_not]
  exact ⟨hown, hother⟩

/-! ## Models -/

/-- A function that is no entry point receives no builtin. -/
theorem plain_of_helper (h : BuiltFrom p set m reached uses) {f : Function} (hf : f ∈ m.functions)
    (hn : ∀ stage, set.entryName? stage ≠ some f.qualifiedName) {param : Parameter}
    (hparam : param ∈ f.params) {semantic : Semantic} (hs : param.semantic = some semantic) :
    semantic.isBuiltin = false := by
  have hentry : f.qualifiedName ∉ set.entries.map Prod.snd := by
    intro hmem
    obtain ⟨⟨stage, _⟩, he, rfl⟩ := List.mem_map.1 hmem
    exact hn stage (EntrySet.mem_entries.1 he)
  have hchecked := h.helpers f hf hentry
  rw [checkHelper] at hchecked
  split at hchecked
  · next hnone =>
    have hbuiltin := List.find?_eq_none.1 hnone param hparam
    simpa [Parameter.builtin?, hs] using hbuiltin
  · cases hchecked

end BuiltFrom

/-- A model that was built obeys the rules of its stages. -/
theorem obeysStages_of_build (h : p.build set = .ok m) : m.ObeysStages p set := by
  obtain ⟨_, _, hbuilt⟩ := builtFrom_of_build h
  exact {
    entries := by
      intro stage entry he
      obtain ⟨f, hentry, hfound, -, hhas⟩ := hbuilt.entryFunction he
      exact ⟨f, hentry, hhas.qualifiedName_eq, hbuilt.fits_of_entry he hfound⟩
    helpers := fun f hf hn param hparam semantic => hbuilt.plain_of_helper hf hn hparam
    derivatives := by
      intro stage entry he hs f hf i args ty hi
      have havailable := Intrinsic.isAvailable_iff.1 (hbuilt.isAvailable_of_runs he hf hi)
      exact Bool.eq_false_iff.2 fun hderivative => hs (havailable.1 hderivative)
    barriers := by
      intro stage entry he hs f hf args ty hi
      have havailable := Intrinsic.isAvailable_iff.1 (hbuilt.isAvailable_of_runs he hf hi)
      exact hs (havailable.2 rfl)
    inputs := by
      intro struct hs
      simp only [Model.roles, List.mem_filter, not_and, Bool.not_eq_true] at hs ⊢
      obtain ⟨hvertex, hfragment⟩ := hbuilt.vertexInput_unwritten hs.2
      exact ⟨fun _ => hvertex, fun _ => hfragment⟩ }

theorem obeysStages_sample : ∃ m, sample.build sampleSet = .ok m ∧
    m.ObeysStages sample sampleSet := by
  have h : sample.build sampleSet = .ok _ := rfl
  exact ⟨_, h, obeysStages_of_build h⟩

end Program

end Shading
