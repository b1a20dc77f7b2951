import Shading.Proofs.Elaboration.Extension
import Shading.Proofs.Model.Building

/-!
# Building in a larger program

What no entry point reaches has no part in a model.  A program that is extended by
structs, functions and shader sets, well-formed or not, builds the same model for every
entry set that it built one for (`build_of_extends`).

Building looks at the program in three ways.  It looks names up and elaborates what they
refer to, and that keeps its results.  It searches within a bound that counts the
declarations, and the bound is never reached (`explore_of_kept`).  It goes over the
structs in declaration order, and it picks those that were found, none of which is new.
-/

namespace Shading.Program

variable {p p' : Program}

section Parts

variable (h : p.Extends p')

include h

/-! ## Functions -/

theorem kept_roots (set : EntrySet) : Kept (p.roots set) (p'.roots set) := by
  refine Kept.mapM fun ⟨stage, name⟩ _ => ?_
  simp only
  cases hd : p.function? name with
  | none => exact .error
  | some d =>
    rw [h.function? hd]
    exact .refl _

theorem kept_expandFunction (name : String) :
    Kept (p.expandFunction name) (p'.expandFunction name) := by
  rw [expandFunction, expandFunction]
  cases hd : p.function? name with
  | none => exact .error
  | some d =>
    rw [h.function? hd]
    exact (kept_elaborateFunction h d).bind_left

theorem kept_reachedFunctions (entries : List String) :
    Kept (p.reachedFunctions entries) (p'.reachedFunctions entries) :=
  explore_of_kept (p.functions.map (·.name)) (kept_expandFunction h)
    (fun _ _ _ _ => mem_names_of_expandFunction) (by simp) h.functions.length_le

/-! ## Stages -/

theorem kept_expandStruct (name : String) :
    Kept (p.expandStruct name) (p'.expandStruct name) := by
  rw [expandStruct, expandStruct]
  cases hd : p.struct? name with
  | none => exact .error
  | some d =>
    rw [h.struct? hd]
    exact (kept_elaborateStruct h d).bind_left

theorem kept_reachedStructs (seeds : List String) :
    Kept (p.reachedStructs seeds) (p'.reachedStructs seeds) :=
  explore_of_kept (p.structs.map (·.name)) (kept_expandStruct h)
    (fun _ _ _ _ => mem_names_of_expandStruct) (by simp) h.structs.length_le

theorem kept_usedResource (entry name : String) :
    Kept (p.usedResource entry name) (p'.usedResource entry name) := by
  rw [usedResource, usedResource, h.resource?]
  split
  · exact .error
  · exact (kept_elaborateResource h _).bind_left

theorem kept_stageUse (calls : Graph) (functions : List Function) (stage : Stage)
    (entry : String) :
    Kept (p.stageUse calls functions stage entry) (p'.stageUse calls functions stage entry) :=
  (Kept.mapM fun name _ => kept_usedResource h entry name).bind fun _ _ =>
    (kept_reachedStructs h _).bind_left

/-! ## Structs -/

/-- The structs that were found are those that were found before, in the same order. -/
theorem orderStructs_of_extends {table : StructTable}
    (ht : ∀ entry ∈ table, entry.1 ∈ p.structs.map (·.name)) :
    p'.orderStructs table = p.orderStructs table := by
  have hfresh : ∀ d : StructDecl, d.name ∉ p.structs.map (·.name) →
      (table.get? d.name).isSome = false := by
    intro d hd
    rw [Option.isSome_eq_false_iff, Option.isNone_iff_eq_none]
    refine List.lookup_eq_none_iff.2 fun entry hentry => bne_iff_ne.2 fun heq => hd ?_
    exact heq ▸ ht entry hentry
  simp only [orderStructs, List.filter_map, h.structs.filter_eq hfresh, Function.comp_def]

end Parts

/-- The structs that a stage uses are declared. -/
theorem declared_of_stageUse {calls : Graph} {functions : List Function} {stage : Stage}
    {entry : String} {u : StageUse} (h : p.stageUse calls functions stage entry = .ok u) :
    ∀ s ∈ u.structs, s.1 ∈ p.structs.map (·.name) := by
  simp only [stageUse, bind_eq_ok, pure_eq_ok] at h
  obtain ⟨resources, -, structs, hstructs, rfl⟩ := h
  intro s hs
  obtain ⟨next, he⟩ := (explored_of_reachedStructs hstructs).expanded s hs
  exact mem_names_of_expandStruct he

/-! ## The model -/

/-- A program that is extended keeps its models. -/
theorem kept_build (h : p.Extends p') (set : EntrySet) : Kept (p.build set) (p'.build set) := by
  rw [build, build]
  refine (kept_roots h set).bind fun roots _ => (kept_reachedFunctions h _).bind fun reached _ =>
    (Kept.refl _).bind fun functions _ =>
    (Kept.mapM fun root _ => kept_stageUse h _ functions root.1 root.2).bind fun uses huses => ?_
  have hdeclared : ∀ entry ∈ uses.flatMap StageUse.structs, entry.1 ∈ p.structs.map (·.name) := by
    intro entry hentry
    obtain ⟨u, hu, hmem⟩ := List.mem_flatMap.1 hentry
    obtain ⟨root, -, huse⟩ := forall₂_of_mem_right (mapM_eq_ok_iff.1 huses) hu
    exact declared_of_stageUse huse entry hmem
  simp only [orderStructs_of_extends h hdeclared, h.resources]
  exact .refl _

/-- Structs, functions and shader sets of new names have no part in a model. -/
theorem build_of_extends (h : p.Extends p') {set : EntrySet} {m : Model}
    (hm : p.build set = .ok m) : p'.build set = .ok m := kept_build h set m hm

/-- The sample with a struct that contains itself, a function of unknown parts and a shader
set of unknown functions among its declarations. -/
def crowded : Program where
  structs := ⟨"Demo.Loop", [⟨"Next", .named "Demo.Loop", none⟩]⟩ :: sample.structs
  resources := sample.resources
  functions := [sample.vertex, broken, sample.fragment, sample.light]
  shaderSets := [⟨"Demo.Missing", some "Demo.NoVS", some "Demo.NoFS"⟩]
where
  broken : FunctionDecl := {
    name := "Demo.Broken"
    metadata := ⟨some .compute, none⟩
    params := [⟨"loop", .named "Demo.Loop", .input, none⟩]
    result := .host "System.String"
    body := [.host "foreach", .expr (.call (.function "Demo.Missing") [] none)] }

theorem extends_crowded : sample.Extends crowded where
  structs := .insert (by decide) (.refl _)
  functions := .keep (.insert (by decide) (.refl _))
  resources := rfl

theorem build_crowded : ∃ m, sample.Extends crowded ∧ sample.build sampleSet = .ok m ∧
    crowded.build sampleSet = .ok m := by
  have h : sample.build sampleSet = .ok _ := rfl
  exact ⟨_, extends_crowded, h, build_of_extends extends_crowded h⟩

end Shading.Program
