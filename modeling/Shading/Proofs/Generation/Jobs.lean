import Mathlib.Data.List.FinRange
import Shading.Generation.Run
import Shading.Proofs.Generation.Collected
import Shading.Proofs.Result

/-!
# Jobs of a run

A run has a job for each set that is built and each backend, and a job gives an output
or an error (`Job`).  Jobs are looked up by positions, and what they are is what the
sets give in turn (`outcomes_eq_flatMap`).  So the outputs that are collected are those
of the jobs (`mem_outputs_iff`).
-/

namespace Shading

/-! ## Sources of a set -/

section Sources

variable {b : Backend} {m : Model} {set : EntrySet}

theorem Backend.sources_eq_ok_iff {sources : List (Stage × String)} :
    b.sources m set = .ok sources ↔
      List.Forall₂ (fun stage entry => entry.1 = stage ∧ b.stageSource m stage = .ok entry.2)
        set.stages sources := by
  rw [Backend.sources, mapM_eq_ok_iff]
  have hstep : ∀ (stage : Stage) (entry : Stage × String),
      (do return (stage, ← b.stageSource m stage) : Except Error (Stage × String)) = .ok entry ↔
        entry.1 = stage ∧ b.stageSource m stage = .ok entry.2 := by
    rintro stage ⟨s, text⟩
    simp only [bind_eq_ok, pure_eq_ok, Prod.mk.injEq]
    constructor
    · rintro ⟨_, htext, rfl, rfl⟩
      exact ⟨rfl, htext⟩
    · rintro ⟨rfl, htext⟩
      exact ⟨text, htext, rfl, rfl⟩
  simp only [hstep]

theorem Backend.output_eq_ok_iff {o : Output} :
    b.output set m = .ok o ↔
      o.target = b.target ∧ o.set = set ∧ o.model = m ∧ b.sources m set = .ok o.sources := by
  simp only [Backend.output, bind_eq_ok, pure_eq_ok]
  constructor
  · rintro ⟨sources, hsources, rfl⟩
    exact ⟨rfl, rfl, rfl, hsources⟩
  · obtain ⟨target, set', m', sources⟩ := o
    rintro ⟨rfl, rfl, rfl, hsources⟩
    exact ⟨sources, hsources, rfl⟩

theorem Backend.output_eq_error_iff {e : Error} :
    b.output set m = .error e ↔ b.sources m set = .error e := by
  rw [Backend.output]
  cases b.sources m set <;> simp [bind, Except.bind, pure, Except.pure]

end Sources

namespace Program

variable {p : Program} {backends : List Backend} {sets : List EntrySet} {index : Nat}
  {set : EntrySet}

/-! ## Jobs -/

/-- The job of a backend on the set at a position: the set is built, and the backend
writes the model with an outcome. -/
def Job (p : Program) (sets : List EntrySet) (index : Nat) (b : Backend)
    (outcome : Except Error Output) : Prop :=
  ∃ set m, sets[index]? = some set ∧ p.buildAt index set = .ok m ∧ b.output set m = outcome

/-- An output is kept for the target of the backend that wrote it. -/
theorem Job.target_eq {b : Backend} {o : Output} (h : p.Job sets index b (.ok o)) :
    o.target = b.target := by
  obtain ⟨set, m, -, -, hout⟩ := h
  exact (Backend.output_eq_ok_iff.1 hout).1

theorem Job.index_lt {b : Backend} {outcome : Except Error Output}
    (h : p.Job sets index b outcome) : index < sets.length := by
  obtain ⟨set, m, hset, -, -⟩ := h
  exact (List.getElem?_eq_some_iff.1 hset).1

/-- A job has one outcome. -/
theorem Job.unique {b : Backend} {x y : Except Error Output} (hx : p.Job sets index b x)
    (hy : p.Job sets index b y) : x = y := by
  obtain ⟨set, m, hset, hm, rfl⟩ := hx
  obtain ⟨set', m', hset', hm', rfl⟩ := hy
  obtain rfl := Option.some.inj (hset.symm.trans hset')
  obtain rfl := Except.ok.inj (hm.symm.trans hm')
  rfl

/-! ## Outcomes -/

/-- The jobs of a run with their outcomes. -/
def outcomes (p : Program) (backends : List Backend) (sets : List EntrySet) :
    List (JobId backends × Except Error Output) :=
  outcomesOf backends sets (p.models sets)

/-- The jobs for the set at a position, with their outcomes. -/
def outcomesAt (p : Program) (backends : List Backend) (index : Nat) (set : EntrySet) :
    List (JobId backends × Except Error Output) :=
  match p.buildAt index set with
  | .error _ => []
  | .ok m => (List.finRange backends.length).map fun b =>
    (⟨index, b⟩, (backends.get b).output set m)

theorem outcomesAt_of_error {e : Error} (h : p.buildAt index set = .error e) :
    p.outcomesAt backends index set = [] := by rw [outcomesAt, h]

theorem outcomesAt_of_ok {m : Model} (h : p.buildAt index set = .ok m) :
    p.outcomesAt backends index set = (List.finRange backends.length).map fun b =>
      (⟨index, b⟩, (backends.get b).output set m) := by rw [outcomesAt, h]

theorem zipIdx_models (p : Program) (sets : List EntrySet) :
    (p.models sets).zipIdx =
      sets.zipIdx.map fun entry => (p.buildAt entry.2 entry.1, entry.2) := by
  refine List.ext_getElem (by simp [models]) fun i hi hi' => ?_
  simp [models]

/-- A job finds its set and the set's model. -/
theorem outcome?_of_ok {m : Model} (hset : sets[index]? = some set)
    (h : p.buildAt index set = .ok m) (b : Fin backends.length) :
    (⟨index, b⟩ : JobId backends).outcome? sets (p.models sets) =
      some ((backends.get b).output set m) := by
  simp [JobId.outcome?, models, hset, h, Except.toOption]

/-- The jobs of a run are those for each set in turn. -/
theorem outcomes_eq_flatMap (p : Program) (backends : List Backend) (sets : List EntrySet) :
    p.outcomes backends sets =
      sets.zipIdx.flatMap fun entry => p.outcomesAt backends entry.2 entry.1 := by
  have hsets : ∀ entry ∈ sets.zipIdx, sets[entry.2]? = some entry.1 := fun entry hentry =>
    List.mem_zipIdx_iff_getElem?.1 hentry
  rw [outcomes, outcomesOf, jobsOf, zipIdx_models]
  generalize sets.zipIdx = entries at hsets
  induction entries with
  | nil => rfl
  | cons entry rest ih =>
    obtain ⟨hset, hrest⟩ := List.forall_mem_cons.1 hsets
    rw [List.map_cons, List.flatMap_cons, ← ih hrest]
    cases h : p.buildAt entry.2 entry.1 with
    | error e =>
      rw [List.filter_cons_of_neg (by simp [Except.isOk, Except.toBool]),
        outcomesAt_of_error h, List.nil_append]
    | ok m =>
      rw [List.filter_cons_of_pos (by simp [Except.isOk, Except.toBool]), List.flatMap_cons,
        List.filterMap_append, outcomesAt_of_ok h, List.filterMap_map]
      congr 1
      simp [outcome?_of_ok hset h]

/-- What stands among the outcomes for a set is a job of the set. -/
theorem mem_outcomesAt_iff {job : JobId backends} {outcome : Except Error Output} :
    (job, outcome) ∈ p.outcomesAt backends index set ↔ job.index = index ∧
      ∃ m, p.buildAt index set = .ok m ∧ (backends.get job.backend).output set m = outcome := by
  cases h : p.buildAt index set with
  | error e => simp [outcomesAt_of_error h]
  | ok m =>
    simp only [outcomesAt_of_ok h, List.mem_map, List.mem_finRange, true_and, Prod.mk.injEq,
      Except.ok.injEq, exists_eq_left']
    constructor
    · rintro ⟨b, rfl, rfl⟩
      exact ⟨rfl, rfl⟩
    · rintro ⟨rfl, rfl⟩
      exact ⟨job.backend, rfl, rfl⟩

/-- What a job comes to is what its backend writes for the model of its set. -/
theorem mem_outcomes_iff {job : JobId backends} {outcome : Except Error Output} :
    (job, outcome) ∈ p.outcomes backends sets ↔
      p.Job sets job.index (backends.get job.backend) outcome := by
  simp only [outcomes_eq_flatMap, List.mem_flatMap, Prod.exists, List.mem_zipIdx_iff_getElem?,
    mem_outcomesAt_iff]
  constructor
  · rintro ⟨set, index, hset, rfl, m, hm, hout⟩
    exact ⟨set, m, hset, hm, hout⟩
  · rintro ⟨set, m, hset, hm, hout⟩
    exact ⟨set, job.index, hset, rfl, m, hm, hout⟩

/-! ## Outputs -/

/-- The outputs of a run, in the order of the jobs. -/
def outputs (p : Program) (backends : List Backend) (sets : List EntrySet) :
    List (Nat × Output) :=
  outputsOf (p.outcomes backends sets)

/-- The outputs that come to be collected are those of the jobs. -/
theorem mem_outputs_iff {o : Output} :
    (index, o) ∈ p.outputs backends sets ↔ ∃ b ∈ backends, p.Job sets index b (.ok o) := by
  rw [outputs, outputsOf, List.mem_filterMap]
  constructor
  · rintro ⟨⟨job, outcome⟩, hmem, heq⟩
    cases outcome with
    | error e => cases heq
    | ok o' =>
      cases heq
      exact ⟨_, List.getElem_mem job.backend.isLt, mem_outcomes_iff.1 hmem⟩
  · rintro ⟨b, hb, hjob⟩
    obtain ⟨i, hi, rfl⟩ := List.getElem_of_mem hb
    exact ⟨(⟨index, ⟨i, hi⟩⟩, .ok o), mem_outcomes_iff.2 hjob, rfl⟩

end Program

end Shading
