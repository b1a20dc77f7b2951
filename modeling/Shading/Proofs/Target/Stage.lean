import Shading.Proofs.Model.Checks
import Shading.Proofs.Target.Body

/-!
# What a stage is written from

A stage of a model that was built is `Writable`: there is an entry function, all that
its functions name is in the model, and its types can be spelled.  What is said of
the source of a stage in a language needs nothing else of how the model was built.
-/

namespace Shading

/-- A stage of a model that can be written, with its entry function. -/
structure Model.Writable (p : Program) (m : Model) (stage : Stage) (f : Function) : Prop where
  entry : m.entryFunction? stage = some f
  entry_mem : f ∈ m.functions
  params : ∀ g ∈ m.functions, ∀ param ∈ g.params, param.ty.Plain p
  result : ∀ g ∈ m.functions, g.result.Plain p
  body : ∀ g ∈ m.functions, ∀ s ∈ g.body, s.Fits p m g.result
  fields : ∀ d ∈ m.structs, ∀ field ∈ d.fields, field.ty.Plain p
  resources : ∀ b ∈ m.resources, p.Declares b.ty
  /-- The structs of the signature are in the model. -/
  interface : ∀ name, f.Mentions name → ∃ d ∈ m.structs, m.struct? name = some d
  /-- The builtins of the signature are those of the stage. -/
  builtins : ∀ param ∈ f.params, ∀ semantic, param.builtin? = some semantic →
    semantic.builtinStage? = some stage

namespace Program.BuiltFrom

variable {p : Program} {set : EntrySet} {m : Model} {reached : Expanded Function}
  {uses : List StageUse}

/-- Every function of a model runs from one of the entry points. -/
theorem exists_runs (h : BuiltFrom p set m reached uses) {f : Function} (hf : f ∈ m.functions) :
    ∃ stage entry, set.entryName? stage = some entry ∧ p.Runs entry f := by
  have hname := (h.model_exact.functions _).1 (List.mem_map_of_mem (f := (·.qualifiedName)) hf)
  obtain ⟨stage, entry, he, hreach⟩ : ∃ stage entry, set.entryName? stage = some entry ∧
      Closure p.Calls (· = entry) f.qualifiedName := by
    refine hname.least (S := fun n => ∃ stage entry, set.entryName? stage = some entry ∧
      Closure p.Calls (· = entry) n) ?_ ?_
    · rintro n ⟨stage, he⟩
      exact ⟨stage, n, he, .seed rfl⟩
    · rintro a b ⟨stage, entry, he, ha⟩ hab
      exact ⟨stage, entry, he, .next ha hab⟩
  exact ⟨stage, entry, he, _, hreach, h.model_exact.hasFunction f hf⟩

/-- A struct that an entry point needs is found in the model. -/
theorem exists_struct (h : BuiltFrom p set m reached uses) {stage : Stage} {entry name : String}
    (he : set.entryName? stage = some entry) (hn : p.Needs entry name) :
    ∃ d ∈ m.structs, m.struct? name = some d := by
  have hname := ((h.model_exact.usage stage entry he).structs name).2 (.seed hn)
  have hmem := (h.model_exact.structs name).2 ⟨stage, EntrySet.mem_stages_of_entryName? he, hname⟩
  obtain ⟨d, hd, hfind, -⟩ := exists_find?_of_mem_map hmem
  exact ⟨d, hd, hfind⟩

/-- What the functions of a model name is found in it. -/
theorem resolves (h : BuiltFrom p set m reached uses) {f : Function} (hf : f ∈ m.functions)
    {e : Core.Expr} (he : e.OccursIn f.body) : e.Resolves m := by
  obtain ⟨stage, entry, hentry, hruns⟩ := h.exists_runs hf
  have hhas := h.model_exact.hasFunction f hf
  cases e with
  | resource name ty =>
    have hname := ((h.model_exact.usage stage entry hentry).resources name).2 ⟨f, hruns, ty, he⟩
    have hmem := (h.model_exact.resources name).2
      ⟨stage, EntrySet.mem_stages_of_entryName? hentry, hname⟩
    obtain ⟨b, -, hb, -⟩ := exists_find?_of_mem_map hmem
    exact ⟨b, hb⟩
  | call function args ty =>
    have hfun := (h.model_exact.functions _).1 (List.mem_map_of_mem (f := (·.qualifiedName)) hf)
    have hmem := (h.model_exact.functions function).2 (.next hfun ⟨f, hhas, args, ty, he⟩)
    obtain ⟨g, -, hg, -⟩ := exists_find?_of_mem_map hmem
    exact ⟨g, hg⟩
  | _ => trivial

/-- Every stage of a model that was built can be written. -/
theorem writable (h : BuiltFrom p set m reached uses) {stage : Stage} (hs : stage ∈ set.stages) :
    ∃ f, m.Writable p stage f := by
  obtain ⟨entry, he⟩ := Option.isSome_iff_exists.1 (EntrySet.mem_stages.1 hs)
  obtain ⟨f, hentry, hf, hmem, hhas⟩ := h.entryFunction he
  obtain ⟨warnings, hcheck⟩ := h.entry_checked he hf
  refine ⟨f, {
    entry := hentry
    entry_mem := hmem
    params := ?_
    result := ?_
    body := ?_
    fields := fun d hd field hfield => (h.model_exact.hasStruct d hd).plain hfield
    resources := fun b hb => (h.model_exact.hasResource b hb).declares
    interface := fun name hn => h.exists_struct he (.function ⟨entry, .seed rfl, hhas⟩ hn)
    builtins := ?_ }⟩
  · intro g hg param hparam
    obtain ⟨d, -, hd⟩ := h.model_exact.hasFunction g hg
    exact (plain_param_of_elaborateFunction hd hparam).1
  · intro g hg
    obtain ⟨d, -, hd⟩ := h.model_exact.hasFunction g hg
    exact (plain_result_of_elaborateFunction hd).1
  · intro g hg s hs t ht
    obtain ⟨d, -, hd⟩ := h.model_exact.hasFunction g hg
    have hoccurs : t.OccursIn g.body := ⟨s, hs, ht⟩
    refine ⟨typed_stmt_of_elaborateFunction hd hoccurs, fun e he x hx => ?_⟩
    have hx : x.OccursIn g.body := ⟨t, hoccurs, e, he, hx⟩
    obtain ⟨htyped, hwf⟩ := typed_expr_of_elaborateFunction hd hx
    exact ⟨htyped, hwf, h.resolves hg hx⟩
  · intro param hparam semantic hsemantic
    obtain ⟨-, htakes⟩ := Signature.Entry.takes_of_check hcheck param hparam
    cases htakes with
    | builtin hb hstage _ => cases hb.symm.trans hsemantic; exact hstage
    | input hb _ _ _ _ => cases hb.symm.trans hsemantic

end Program.BuiltFrom

end Shading
