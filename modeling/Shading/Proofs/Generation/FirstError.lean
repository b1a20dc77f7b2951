import Shading.Proofs.Generation.Accounts
import Shading.Proofs.Graph.BeforeUse

/-!
# The error that ends a run

A run that ends at the first failure has an error exactly when a set of the request is
empty or not built, or a backend does not write it.  The error is that of the first such
set.  If the set is not built, it is the error of building, and else that of the first
backend that does not write the set, at the first stage it does not write
(`failsFast_of_generate`).

Build errors and backend errors are found apart and put in order by the replay of a run,
so what a run answers with is the first failure that is replayed
(`run_failFast_eq_error_iff`).  It is looked for in the sets, and in the backends for one
of them, and both searches stop at the first that fails.
-/

namespace Shading

/-! ## The first stage that fails -/

/-- The stages of a set, in the order of the pipeline. -/
theorem EntrySet.stages_eq_filter (set : EntrySet) :
    set.stages = Stage.all.filter fun stage => (set.entryName? stage).isSome := by
  rw [stages, entries, List.map_filterMap, ← List.filterMap_eq_filter]
  refine List.filterMap_congr fun stage _ => ?_
  cases h : set.entryName? stage <;> simp [h, Option.guard]

/-- A backend writes all stages of a set. -/
def Backend.Writes (b : Backend) (m : Model) (set : EntrySet) : Prop :=
  ∀ stage ∈ set.stages, ∃ text, b.stageSource m stage = .ok text

/-- A backend fails at a stage of a set, and writes the stages of the set that come before
it in the pipeline. -/
structure Backend.StopsAt (b : Backend) (m : Model) (set : EntrySet) (stage : Stage) (e : Error) :
    Prop where
  entry : stage ∈ set.stages
  failed : b.stageSource m stage = .error e
  earlier : ∃ before after, Stage.all = before ++ stage :: after ∧
    ∀ s ∈ before, s ∈ set.stages → ∃ text, b.stageSource m s = .ok text

namespace Backend

variable {b : Backend} {m : Model} {set : EntrySet} {e : Error}

theorem exists_output_iff : (∃ o, b.output set m = .ok o) ↔ b.Writes m set := by
  constructor
  · rintro ⟨o, ho⟩ stage hstage
    obtain ⟨-, -, -, hsources⟩ := output_eq_ok_iff.1 ho
    obtain ⟨entry, -, -, htext⟩ := forall₂_of_mem_left (sources_eq_ok_iff.1 hsources) hstage
    exact ⟨entry.2, htext⟩
  · intro h
    refine exists_bind_ok (exists_mapM_ok fun stage hstage => ?_) fun sources _ => ⟨_, rfl⟩
    exact exists_bind_ok (h stage hstage) fun text _ => ⟨_, rfl⟩

/-- A backend that does not write a set stops at the first stage it does not write. -/
theorem output_eq_error_iff_stopsAt :
    b.output set m = .error e ↔ ∃ stage, b.StopsAt m set stage e := by
  have hstep : ∀ stage, (do return (stage, ← b.stageSource m stage) : Except Error _) = .error e ↔
      b.stageSource m stage = .error e := by
    intro stage
    rw [bind_eq_error]
    simp [pure, Except.pure]
  rw [output_eq_error_iff, sources]
  constructor
  · intro h
    obtain ⟨written, stage, later, hsplit, hwritten, hstage⟩ := exists_of_mapM_error h
    obtain ⟨before, after, hall, hbefore, -⟩ :=
      exists_split_of_filter (set.stages_eq_filter.symm.trans hsplit)
    refine ⟨stage, by simp [hsplit], (hstep stage).1 hstage, before, after, hall, ?_⟩
    intro s hs hset
    obtain ⟨entry, hentry⟩ := hwritten s <| hbefore ▸
      List.mem_filter.2 ⟨hs, EntrySet.mem_stages.1 hset⟩
    obtain ⟨text, htext, -⟩ := bind_eq_ok.1 hentry
    exact ⟨text, htext⟩
  · rintro ⟨stage, hentry, hfailed, before, after, hall, hearlier⟩
    have hkept : (set.entryName? stage).isSome = true := EntrySet.mem_stages.1 hentry
    simp only [EntrySet.stages_eq_filter, hall, List.filter_append, List.filter_cons, hkept,
      if_true]
    refine mapM_eq_error (fun s hs => ?_) ((hstep stage).2 hfailed)
    obtain ⟨hs, hset⟩ := List.mem_filter.1 hs
    exact exists_bind_ok (hearlier s hs (EntrySet.mem_stages.2 hset)) fun text _ => ⟨_, rfl⟩

end Backend

namespace Program

variable {p : Program} {backends : List Backend} {sets : List EntrySet} {index : Nat}
  {set : EntrySet} {e : Error}

/-! ## The first set that fails -/

/-- A set is built, and all backends write it. -/
def Passes (p : Program) (backends : List Backend) (set : EntrySet) : Prop :=
  ∃ m, p.Builds set m ∧ ∀ b ∈ backends, b.Writes m set

/-- The error that the set at a position ends a run with: the set is refused, or a backend
does not write it where the backends before it do. -/
inductive EndsWith (p : Program) (backends : List Backend) (index : Nat) (set : EntrySet)
    (e : Error) : Prop where
  | refused (refuses : p.Refuses index set e)
  | unwritten {m : Model} {before after : List Backend} {b : Backend} {stage : Stage}
      (builds : p.Builds set m) (split : backends = before ++ b :: after)
      (earlier : ∀ x ∈ before, x.Writes m set) (stops : b.StopsAt m set stage e)

/-- The first element of a list with something to be found is found. -/
theorem findSome?_zipIdx_eq_some_iff {α β : Type} {l : List α} {f : α × Nat → Option β} {b : β} :
    l.zipIdx.findSome? f = some b ↔ ∃ i a, l[i]? = some a ∧ f (a, i) = some b ∧
      ∀ j < i, ∀ x, l[j]? = some x → f (x, j) = none := by
  rw [List.findSome?_eq_some_iff]
  constructor
  · rintro ⟨before, ⟨a, i⟩, after, hsplit, ha, hbefore⟩
    have hat : ∀ j, l.zipIdx[j]? = (l[j]?).map (·, j) := fun j => by
      rw [List.getElem?_zipIdx, Nat.zero_add]
    obtain rfl : i = before.length := by
      have := hat before.length
      rw [hsplit, List.getElem?_append_right (Nat.le_refl _), Nat.sub_self] at this
      obtain ⟨x, -, hx⟩ := Option.map_eq_some_iff.1 this.symm
      exact (Prod.ext_iff.1 hx).2.symm
    have hmem : (a, before.length) ∈ l.zipIdx := by simp [hsplit]
    refine ⟨_, a, List.mem_zipIdx_iff_getElem?.1 hmem, ha, fun j hj x hx => ?_⟩
    have hentry : l.zipIdx[j]? = some (x, j) := by rw [hat, hx]; rfl
    rw [hsplit, List.getElem?_append_left hj] at hentry
    exact hbefore _ (List.mem_of_getElem? hentry)
  · rintro ⟨i, a, ha, hfound, hbefore⟩
    have hi : i < l.zipIdx.length := by simpa using (List.getElem?_eq_some_iff.1 ha).1
    refine ⟨l.zipIdx.take i, (a, i), l.zipIdx.drop (i + 1), ?_, hfound, ?_⟩
    · have hentry : l.zipIdx[i] = (a, i) := by
        simpa using (List.getElem?_eq_some_iff.1 ha).2
      rw [← hentry, List.cons_getElem_drop_succ, List.take_append_drop]
    · intro entry hentry
      obtain ⟨j, hj, rfl⟩ := List.getElem_of_mem hentry
      rw [List.length_take, List.length_zipIdx, Nat.lt_min] at hj
      simpa using hbefore j hj.1 l[j] (List.getElem?_eq_getElem hj.2)

theorem succeeds_iff_passes : p.Succeeds backends index set ↔ p.Passes backends set := by
  simp only [Succeeds, Passes, buildAt_eq_ok_iff, Backend.exists_output_iff]

/-- The first failure of a set is what the set ends a run with. -/
theorem exists_head?_failuresAt_iff :
    (∃ f, (p.failuresAt backends index set).head? = some f ∧ f.error = e) ↔
      p.EndsWith backends index set e := by
  cases hbuild : p.buildAt index set with
  | error e' =>
    have hrefuses := buildAt_eq_error_iff.1 hbuild
    simp only [failuresAt_of_error hbuild, List.head?_cons, Option.some.injEq, exists_eq_left']
    constructor
    · rintro rfl
      exact .refused hrefuses
    · rintro (hrefuses' | ⟨hbuilds, -, -, -⟩)
      · exact Except.error.inj (hbuild.symm.trans (buildAt_eq_error_iff.2 hrefuses'))
      · cases hbuild.symm.trans (buildAt_eq_ok_iff.2 hbuilds)
  | ok m =>
    have hbuilds := buildAt_eq_ok_iff.1 hbuild
    simp only [failuresAt_of_ok hbuild, List.head?_filterMap, List.findSome?_eq_some_iff]
    constructor
    · rintro ⟨f, ⟨before, b, after, hsplit, hf, hbefore⟩, rfl⟩
      obtain ⟨e, he, rfl⟩ := failure?_eq_some_iff.1 hf
      obtain ⟨stage, hstops⟩ := Backend.output_eq_error_iff_stopsAt.1 he
      refine .unwritten hbuilds hsplit (fun x hx => ?_) hstops
      exact Backend.exists_output_iff.1 (failure?_eq_none_iff.1 (hbefore x hx))
    · rintro (hrefuses | @⟨m', before, after, b, stage, hbuilds', hsplit, hearlier, hstops⟩)
      · cases hbuild.symm.trans (buildAt_eq_error_iff.2 hrefuses)
      · obtain rfl := Except.ok.inj (hbuild.symm.trans (buildAt_eq_ok_iff.2 hbuilds'))
        have hfailed := Backend.output_eq_error_iff_stopsAt.2 ⟨stage, hstops⟩
        refine ⟨_, ⟨before, b, after, hsplit, failure?_eq_some_iff.2 ⟨e, hfailed, rfl⟩, ?_⟩, rfl⟩
        intro x hx
        exact failure?_eq_none_iff.2 (Backend.exists_output_iff.2 (hearlier x hx))

/-! ## Answers -/

theorem admit_failFast_eq_error_iff {failures : List Failure} :
    FailurePolicy.admit .failFast failures = .error e ↔
      ∃ f, failures.head? = some f ∧ f.error = e := by
  unfold FailurePolicy.admit
  cases failures <;> simp

/-- A run that ends at the first failure has the error of the first set that fails. -/
theorem run_failFast_eq_error_iff :
    p.run backends .failFast sets = .error e ↔
      ∃ index set, sets[index]? = some set ∧
        (∀ i < index, ∀ earlier, sets[i]? = some earlier → p.Passes backends earlier) ∧
        p.EndsWith backends index set e := by
  have hpasses : ∀ i set, (p.failuresAt backends i set).head? = none ↔ p.Passes backends set := by
    intro i set
    rw [List.head?_eq_none_iff, failuresAt_eq_nil_iff, succeeds_iff_passes]
  have hrun : p.run backends .failFast sets = .error e ↔
      ∃ f, (p.failures backends sets).head? = some f ∧ f.error = e := by
    rw [run_eq, bind_eq_error, admit_failFast_eq_error_iff]
    simp [pure, Except.pure]
  simp only [hrun, failures, List.head?_flatMap, findSome?_zipIdx_eq_some_iff, hpasses,
    ← exists_head?_failuresAt_iff]
  constructor
  · rintro ⟨f, ⟨index, set, hset, hf, hearlier⟩, rfl⟩
    exact ⟨index, set, hset, hearlier, f, hf, rfl⟩
  · rintro ⟨index, set, hset, hearlier, f, hf, rfl⟩
    exact ⟨f, ⟨index, set, hset, hf, hearlier⟩, rfl⟩

theorem exists_run_failFast_error_iff :
    (∃ e, p.run backends .failFast sets = .error e) ↔ ∃ set ∈ sets, ¬ p.Passes backends set := by
  have hnil : p.failures backends sets = [] ↔ ∀ set ∈ sets, p.Passes backends set := by
    simp only [failures, List.flatMap_eq_nil_iff, failuresAt_eq_nil_iff, succeeds_iff_passes]
    constructor
    · intro h set hset
      obtain ⟨i, hi⟩ := List.mem_iff_getElem?.1 hset
      exact h (set, i) (List.mem_zipIdx_iff_getElem?.2 hi)
    · exact fun h entry hentry => h _ (List.fst_mem_of_mem_zipIdx hentry)
  rw [run_eq]
  cases hf : p.failures backends sets with
  | nil =>
    have hpasses := hnil.1 hf
    constructor
    · rintro ⟨e, he⟩
      cases he
    · rintro ⟨set, hset, hfails⟩
      exact absurd (hpasses set hset) hfails
  | cons f rest =>
    have hfails : ∃ set ∈ sets, ¬ p.Passes backends set := by simpa [hf] using hnil
    exact ⟨fun _ => hfails, fun _ => ⟨f.error, rfl⟩⟩

theorem not_passes_iff :
    ¬ p.Passes backends set ↔ set.isEmpty = true ∨ (∃ e, p.build set = .error e) ∨
      ∃ m, p.build set = .ok m ∧ ∃ b ∈ backends, ∃ stage ∈ set.stages, ∃ e,
        b.stageSource m stage = .error e := by
  cases hempty : set.isEmpty with
  | true => simp [Passes, Builds, hempty]
  | false =>
    cases hbuild : p.build set with
    | error e => simp [Passes, Builds, hbuild]
    | ok m =>
      have hstage : ∀ (b : Backend) stage, (¬ ∃ text, b.stageSource m stage = .ok text) ↔
          ∃ e, b.stageSource m stage = .error e := by
        intro b stage
        cases b.stageSource m stage <;> simp
      simp [Passes, Builds, Backend.Writes, hempty, hbuild, ← hstage]

/-- What a run that ends at the first failure answers to a request for sets. -/
structure FailsFast (p : Program) (backends : List Backend) (sets : List EntrySet)
    (answer : Except Error Result) : Prop where
  /-- It is an error when a set is empty or not built, or a backend fails on one that is
  built, and only then. -/
  error_iff : (∃ e, answer = .error e) ↔ ∃ set ∈ sets,
    set.isEmpty = true ∨ (∃ e, p.build set = .error e) ∨
      ∃ m, p.build set = .ok m ∧ ∃ b ∈ backends, ∃ stage ∈ set.stages, ∃ e,
        b.stageSource m stage = .error e
  /-- The error is that of the first set that fails, and nothing else is. -/
  first : ∀ e, answer = .error e ↔ ∃ index set, sets[index]? = some set ∧
    (∀ i < index, ∀ earlier, sets[i]? = some earlier → p.Passes backends earlier) ∧
    p.EndsWith backends index set e

/-- A run under the policy of the first failure answers with the error that comes first
in the order of the request. -/
theorem failsFast_of_generate (p : Program) (r : Registry) (request : Request)
    (options : Options) (h : options.policy.getD request.defaultPolicy = .failFast) :
    p.FailsFast (r.createAll options.fixup (options.targets.getD r.targets))
      (request.entrySets p) (p.generate r request options) := by
  rw [generate, h]
  constructor
  · simp only [exists_run_failFast_error_iff, not_passes_iff]
  · exact fun e => run_failFast_eq_error_iff

/-- The set of the compute stage, and behind it one that names no function. -/
def multisampledRequest : Request := .listed [multisampledSet, ⟨some "Demo.VS", none, none⟩]

/-- The first set is built, and the first backend does not write it. -/
theorem failsFast_multisampled :
    (none : Option FailurePolicy).getD multisampledRequest.defaultPolicy = .failFast ∧
    multisampled.FailsFast (esBeforeHlsl.createAll none esBeforeHlsl.targets)
      [multisampledSet, ⟨some "Demo.VS", none, none⟩]
      (multisampled.generate esBeforeHlsl multisampledRequest ⟨none, none, none⟩) ∧
    multisampled.generate esBeforeHlsl multisampledRequest ⟨none, none, none⟩ =
      .error (.unsupportedType .glslEs300 (.resource .texture2DMS .readOnly)) :=
  ⟨rfl, multisampled.failsFast_of_generate esBeforeHlsl multisampledRequest ⟨none, none, none⟩ rfl,
    rfl⟩

end Program

end Shading
