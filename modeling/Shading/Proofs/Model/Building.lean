import Shading.Model.Build
import Shading.Proofs.Core.Occurrence
import Shading.Proofs.Graph.Order

/-!
# What building goes through

`BuiltFrom` lists everything that is so when a model was built: what was found,
elaborated, ordered and checked on the way.  It is read off `Program.build` once
(`builtFrom_of_build`), and what is said of models in other modules is said from
its fields.

The declarations of a program are referred to by name.  `HasFunction`,
`HasStruct` and `HasResource` relate a name to what its declaration stands for.
-/

namespace Shading

namespace Program

/-! ## Declarations by name -/

/-- A name is declared as a function, and the declaration stands for `f`. -/
def HasFunction (p : Program) (name : String) (f : Function) : Prop :=
  ∃ d, p.function? name = some d ∧ p.elaborateFunction d = .ok f

/-- A name is declared as a struct, and the declaration stands for `d`. -/
def HasStruct (p : Program) (name : String) (d : StructDef) : Prop :=
  ∃ decl, p.struct? name = some decl ∧ p.elaborateStruct decl = .ok d

/-- A name is declared as a resource, and the declaration stands for `r`. -/
def HasResource (p : Program) (name : String) (r : ResourceTy) : Prop :=
  ∃ d, p.resource? name = some d ∧ p.elaborateResource d = .ok r

variable {p : Program}

/-- What is found and then elaborated is one thing. -/
theorem unique_of_found {δ α : Type} {found : Option δ} {elaborate : δ → Except Error α} {a b : α}
    (ha : ∃ d, found = some d ∧ elaborate d = .ok a)
    (hb : ∃ d, found = some d ∧ elaborate d = .ok b) : a = b := by
  obtain ⟨d, hd, ha⟩ := ha
  obtain ⟨d', hd', hb⟩ := hb
  obtain rfl := Option.some.inj (hd.symm.trans hd')
  exact Except.ok.inj (ha.symm.trans hb)

theorem HasFunction.unique {name : String} {f g : Function} (hf : p.HasFunction name f)
    (hg : p.HasFunction name g) : f = g := unique_of_found hf hg

theorem HasStruct.unique {name : String} {a b : StructDef} (ha : p.HasStruct name a)
    (hb : p.HasStruct name b) : a = b := unique_of_found ha hb

theorem HasResource.unique {name : String} {a b : ResourceTy} (ha : p.HasResource name a)
    (hb : p.HasResource name b) : a = b := unique_of_found ha hb

/-- The parts a function is elaborated from. -/
theorem elaborateFunction_eq_ok {d : FunctionDecl} {f : Function}
    (h : p.elaborateFunction d = .ok f) :
    ∃ params result body, d.params.mapM (p.elaborateParam d.name) = .ok params ∧
      p.elaborateResult d.name d.result = .ok result ∧
      Scope.stmts ⟨p, d.name, result⟩ d.body = .ok body ∧
      f = ⟨d.shortName, d.name, d.metadata.stage, params, result, body, d.metadata.groupSize,
        Surface.calledBy d.body⟩ := by
  simp only [elaborateFunction, bind_eq_ok, pure_eq_ok] at h
  obtain ⟨params, hparams, result, hresult, body, hbody, rfl⟩ := h
  exact ⟨params, result, body, hparams, hresult, hbody, rfl⟩

/-- A function keeps the name it is declared by. -/
theorem HasFunction.qualifiedName_eq {name : String} {f : Function} (h : p.HasFunction name f) :
    f.qualifiedName = name := by
  obtain ⟨d, hd, hf⟩ := h
  obtain ⟨params, result, body, -, -, -, rfl⟩ := elaborateFunction_eq_ok hf
  exact name_of_function? hd

/-- A struct keeps the name it is declared by. -/
theorem HasStruct.name_eq {name : String} {d : StructDef} (h : p.HasStruct name d) :
    d.name = name := by
  obtain ⟨decl, hdecl, hd⟩ := h
  simp only [elaborateStruct, bind_eq_ok, pure_eq_ok] at hd
  obtain ⟨fields, -, rfl⟩ := hd
  exact name_of_struct? hdecl

/-! ## Expansion -/

theorem expandFunction_eq_ok {name : String} {f : Function} {next : List String} :
    p.expandFunction name = .ok (f, next) ↔ p.HasFunction name f ∧ next = f.callees := by
  unfold expandFunction HasFunction
  split
  · next h => simp [h]
  · next d h =>
    simp only [h, bind_eq_ok, pure_eq_ok, Prod.mk.injEq, Option.some.injEq, exists_eq_left']
    constructor
    · intro h
      obtain ⟨g, hg, rfl, rfl⟩ := h
      exact ⟨hg, rfl⟩
    · intro h
      obtain ⟨hf, rfl⟩ := h
      exact ⟨f, hf, rfl, rfl⟩

theorem expandStruct_eq_ok {name : String} {d : StructDef} {next : List String} :
    p.expandStruct name = .ok (d, next) ↔ p.HasStruct name d ∧ next = d.dependencies := by
  unfold expandStruct HasStruct
  split
  · next h => simp [h, fault]
  · next decl h =>
    simp only [h, bind_eq_ok, pure_eq_ok, Prod.mk.injEq, Option.some.injEq, exists_eq_left']
    constructor
    · intro h
      obtain ⟨e, he, rfl, rfl⟩ := h
      exact ⟨he, rfl⟩
    · intro h
      obtain ⟨hd, rfl⟩ := h
      exact ⟨d, hd, rfl, rfl⟩

theorem usedResource_eq_ok {entry name : String} {r : String × ResourceTy} :
    p.usedResource entry name = .ok r ↔ p.HasResource name r.2 ∧ r.1 = name := by
  unfold usedResource HasResource
  split
  · next h => simp [h, fault]
  · next d h =>
    simp only [h, bind_eq_ok, pure_eq_ok, Option.some.injEq, exists_eq_left']
    constructor
    · intro h
      obtain ⟨ty, hty, rfl⟩ := h
      exact ⟨hty, rfl⟩
    · intro h
      obtain ⟨hty, rfl⟩ := h
      exact ⟨_, hty, rfl⟩

/-- Only what is declared is expanded. -/
theorem mem_names_of_expandFunction {name : String} {f : Function} {next : List String}
    (h : p.expandFunction name = .ok (f, next)) : name ∈ p.functions.map (·.name) := by
  obtain ⟨⟨d, hd, -⟩, -⟩ := expandFunction_eq_ok.1 h
  exact List.mem_map.2 ⟨d, List.mem_of_find?_eq_some hd, name_of_function? hd⟩

theorem mem_names_of_expandStruct {name : String} {d : StructDef} {next : List String}
    (h : p.expandStruct name = .ok (d, next)) : name ∈ p.structs.map (·.name) := by
  obtain ⟨⟨decl, hdecl, -⟩, -⟩ := expandStruct_eq_ok.1 h
  exact List.mem_map.2 ⟨decl, List.mem_of_find?_eq_some hdecl, name_of_struct? hdecl⟩

/-- The functions that entry points reach are searched to the end. -/
theorem explored_of_reachedFunctions {entries : List String} {reached : Expanded Function}
    (h : p.reachedFunctions entries = .ok reached) :
    Explored p.expandFunction (· ∈ entries) [] reached :=
  explored_of_explore (p.functions.map (·.name)) (fun _ _ _ _ => mem_names_of_expandFunction)
    (by simp) h

/-- The structs that seeds mention are searched to the end. -/
theorem explored_of_reachedStructs {seeds : List String} {structs : StructTable}
    (h : p.reachedStructs seeds = .ok structs) :
    Explored p.expandStruct (· ∈ seeds) [] structs :=
  explored_of_explore (p.structs.map (·.name)) (fun _ _ _ _ => mem_names_of_expandStruct)
    (by simp) h

/-! ## Entry points -/

/-- An entry point is declared, and marked for its stage. -/
def IsRoot (p : Program) (stage : Stage) (name : String) : Prop :=
  ∃ d, p.function? name = some d ∧ d.metadata.stage = some stage

/-- The entry points of a set are those it names, when all of them are there. -/
theorem roots_eq_ok {set : EntrySet} {roots : List (Stage × String)}
    (h : p.roots set = .ok roots) :
    roots = set.entries ∧ ∀ stage name, (stage, name) ∈ set.entries → p.IsRoot stage name := by
  have hroots : List.Forall₂ (fun e r => r = e ∧ p.IsRoot e.1 e.2) set.entries roots := by
    refine (mapM_eq_ok_iff.1 h).imp ?_
    intro entry r hr
    obtain ⟨stage, name⟩ := entry
    simp only at hr
    split at hr
    · cases hr
    · next d hd =>
      split at hr
      · next hstage =>
        cases hr
        exact ⟨rfl, d, hd, hstage⟩
      · cases hr
  constructor
  · simpa using map_eq_of_forall₂ (f := id) (g := id) hroots fun e r hr => hr.1
  · intro stage name hmem
    obtain ⟨r, -, hr⟩ := forall₂_of_mem_left hroots hmem
    exact hr.2

/-! ## Models -/

end Program

/-- No stage has two entry points. -/
theorem EntrySet.nodup_stages (set : EntrySet) : set.stages.Nodup := by
  obtain ⟨vertex, fragment, compute⟩ := set
  cases vertex <;> cases fragment <;> cases compute <;>
    simp [stages, entries, Stage.all, entryName?]

namespace Program

variable {p : Program}

/-- What is so when a model was built, with the functions found and what each stage
uses. -/
structure BuiltFrom (p : Program) (set : EntrySet) (m : Model) (reached : Expanded Function)
    (uses : List StageUse) : Prop where
  roots : ∀ stage name, (stage, name) ∈ set.entries → p.IsRoot stage name
  explored : Explored p.expandFunction (· ∈ set.entries.map Prod.snd) [] reached
  functions : orderFunctions reached (set.entries.map Prod.snd) = .ok m.functions
  used : List.Forall₂
    (fun e u => p.stageUse (callGraph reached) m.functions e.1 e.2 = .ok u) set.entries uses
  structs : p.orderStructs (uses.flatMap StageUse.structs) = .ok m.structs
  resources : m.resources =
    bind (uses.flatMap StageUse.resources) (p.resources.zip (assignSlots p.resources))
  distinct : checkCollisions m.resources = .ok ()
  /-- Every stage passed its checks. -/
  stages : ∀ u entry, (u, entry) ∈ uses.zip (set.entries.map Prod.snd) →
    ∃ warnings, checkStage (uses.flatMap StageUse.structs) m.functions u entry = .ok warnings
  /-- The warnings are those of the checks and those about sizes. -/
  warned : ∃ warnings, (uses.zip (set.entries.map Prod.snd)).mapM
      (fun e => checkStage (uses.flatMap StageUse.structs) m.functions e.1 e.2) = .ok warnings ∧
    m.warnings = warnings.flatten ++
      m.resources.filterMap (sizeWarning? (uses.flatMap StageUse.structs))
  helpers : ∀ f ∈ m.functions, f.qualifiedName ∉ set.entries.map Prod.snd → checkHelper f = .ok ()
  links : checkLinks (uses.flatMap StageUse.structs) m.functions set = .ok ()
  entryPoints : m.entryPoints = set
  usage : m.usage = uses.map fun u => (u.stage, u.usage)

/-- A model that was built went through all of this. -/
theorem builtFrom_of_build {set : EntrySet} {m : Model} (h : p.build set = .ok m) :
    ∃ reached uses, BuiltFrom p set m reached uses := by
  simp only [build, bind_eq_ok, pure_eq_ok] at h
  obtain ⟨roots, hroots, reached, hreached, functions, hfunctions, uses, huses, structs, hstructs,
    _, hcollisions, warnings, hwarnings, _, hhelpers, _, hlinks, rfl⟩ := h
  obtain ⟨rfl, hroot⟩ := roots_eq_ok hroots
  refine ⟨reached, uses, {
    roots := hroot
    explored := explored_of_reachedFunctions hreached
    functions := hfunctions
    used := mapM_eq_ok_iff.1 huses
    structs := hstructs
    resources := rfl
    distinct := hcollisions
    stages := ?_
    warned := ⟨warnings, hwarnings, rfl⟩
    helpers := ?_
    links := hlinks
    entryPoints := rfl
    usage := rfl }⟩
  · intro u entry hmem
    obtain ⟨w, -, hw⟩ := forall₂_of_mem_left (mapM_eq_ok_iff.1 hwarnings) hmem
    exact ⟨w, hw⟩
  · intro f hf hentry
    exact forM_eq_ok.1 hhelpers f (List.mem_filter.2 ⟨hf, by simpa using hentry⟩)

/-! ## A sample -/

/-- A program with two stages.  The vertex stage moves vertices through a camera, and
the fragment stage adds lights from a buffer to what it samples from a texture. -/
def sample : Program where
  structs := [
    ⟨"Demo.Vertex", [⟨"Position", .vector .float 4, some .position⟩,
      ⟨"Uv", .vector .float 2, none⟩]⟩,
    ⟨"Demo.Pixel", [⟨"Position", .vector .float 4, some .systemPosition⟩,
      ⟨"Uv", .vector .float 2, some .textureCoordinate⟩, ⟨"Layer", .scalar .uint, some .color⟩]⟩,
    ⟨"Demo.Camera", [⟨"View", .matrix 4 4, none⟩]⟩]
  resources := [
    ⟨"Camera", .uniformBuffer, some (.named "Demo.Camera"), .readOnly, none, none⟩,
    ⟨"Albedo", .texture2D, none, .readOnly, none, none⟩,
    ⟨"Linear", .sampler, none, .readOnly, none, none⟩,
    ⟨"Lights", .structuredBuffer, some (.vector .float 4), .readOnly, none, some 1⟩]
  functions := [vertex, fragment, light]
  shaderSets := []
where
  float4 : Surface.TypeExpr := .vector .float 4
  vertex : FunctionDecl := {
    name := "Demo.VS"
    metadata := ⟨some .vertex, none⟩
    params := [⟨"input", .named "Demo.Vertex", .input, none⟩,
      ⟨"index", .scalar .uint, .input, some .vertexIndex⟩]
    result := .named "Demo.Pixel"
    body := [
      .declare "output" (.named "Demo.Pixel") none,
      .assign (.member output "Position" none) .assign
        (.binary .mul (.member (.resource "Camera" none) "View" none)
          (.member input "Position" none) (some float4)),
      .assign (.member output "Uv" none) .assign (.member input "Uv" none),
      .assign (.member output "Layer" none) .assign (.var "index" (some (.scalar .uint))),
      .ret (some output)] }
  input : Surface.Expr := .var "input" (some (.named "Demo.Vertex"))
  output : Surface.Expr := .var "output" (some (.named "Demo.Pixel"))
  fragment : FunctionDecl := {
    name := "Demo.FS"
    metadata := ⟨some .fragment, none⟩
    params := [⟨"pixel", .named "Demo.Pixel", .input, none⟩]
    result := float4
    body := [
      .declare "color" float4 (some (.call (.intrinsic "Sample")
        [.resource "Albedo" none, .resource "Linear" none,
          .member (.var "pixel" (some (.named "Demo.Pixel"))) "Uv" none] (some float4))),
      .forLoop [.declare "i" (.scalar .int) (some (.literal (.int 0) none))]
        (some (.binary .lt index (.literal (.int 4) none) (some (.scalar .bool))))
        [.expr (.unary .preIncrement index (some (.scalar .int)))]
        [.assign (.var "color" (some float4)) .add
          (.call (.function "Demo.Light") [index] (some float4))],
      .ret (some (.var "color" (some float4)))] }
  index : Surface.Expr := .var "i" (some (.scalar .int))
  light : FunctionDecl := {
    name := "Demo.Light"
    metadata := .helper
    params := [⟨"i", .scalar .int, .input, none⟩]
    result := float4
    body := [.ret (some (.index (.resource "Lights" none) index none))] }

/-- Both stages of the sample. -/
def sampleSet : EntrySet := ⟨some "Demo.VS", some "Demo.FS", none⟩

end Program

end Shading
