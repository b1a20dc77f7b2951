import Mathlib.Data.List.TakeDrop
import Mathlib.Data.List.TakeWhile
import Shading.Proofs.Generation.Jobs

/-!
# Replay of errors

The errors of the jobs stand in the order of the jobs, and a run goes through its sets
and takes off the errors of each (`replay`).  Each set comes to have the failures it has
by itself (`takeFailures_errorsOf`), because the errors of a set stand together and
before those of the sets behind it.  So what is replayed is the failures of each set in
turn (`replay_eq`).

A run ends at the first of them or reports all, as the policy says (`run_eq`).
-/

namespace Shading

theorem Failure.precedes_iff {a b : Failure} :
    a.precedes b = true ↔
      a.index < b.index ∨ a.index = b.index ∧ a.phase.rank ≤ b.phase.rank := by
  simp [Failure.precedes]

/-- A policy looks at failures one after the other. -/
theorem FailurePolicy.admit_append (policy : FailurePolicy) (before after : List Failure) :
    policy.admit (before ++ after) = (do policy.admit before; policy.admit after) := by
  cases policy <;> cases before <;> rfl

/-! ## Errors of jobs -/

section Errors

variable {backends : List Backend}

theorem mem_errorsOf_iff {outcomes : List (JobId backends × Except Error Output)}
    {job : JobId backends} {e : Error} :
    (job, e) ∈ errorsOf outcomes ↔ (job, .error e) ∈ outcomes := by
  rw [errorsOf, List.mem_filterMap]
  constructor
  · rintro ⟨⟨_, _ | _⟩, hmem, heq⟩
    · cases heq
      exact hmem
    · cases heq
  · exact fun hmem => ⟨_, hmem, rfl⟩

theorem errorsOf_append (xs ys : List (JobId backends × Except Error Output)) :
    errorsOf (xs ++ ys) = errorsOf xs ++ errorsOf ys :=
  List.filterMap_append

end Errors

namespace Program

variable {p : Program} {backends : List Backend} {sets : List EntrySet} {index : Nat}
  {set : EntrySet}

/-! ## Failures of a set -/

/-- The failure of a backend on a model. -/
def failure? (index : Nat) (set : EntrySet) (m : Model) (b : Backend) : Option Failure :=
  match b.output set m with
  | .ok _ => none
  | .error e => some ⟨index, set, .emitting b.target, e⟩

/-- The failures of the set at a position, whatever the other sets are. -/
def failuresAt (p : Program) (backends : List Backend) (index : Nat) (set : EntrySet) :
    List Failure :=
  match p.buildAt index set with
  | .error e => [⟨index, set, .building, e⟩]
  | .ok m => backends.filterMap (failure? index set m)

/-- The failures of all sets, in the order of the request. -/
def failures (p : Program) (backends : List Backend) (sets : List EntrySet) : List Failure :=
  sets.zipIdx.flatMap fun entry => p.failuresAt backends entry.2 entry.1

theorem failuresAt_of_error {e : Error} (h : p.buildAt index set = .error e) :
    p.failuresAt backends index set = [⟨index, set, .building, e⟩] := by rw [failuresAt, h]

theorem failuresAt_of_ok {m : Model} (h : p.buildAt index set = .ok m) :
    p.failuresAt backends index set = backends.filterMap (failure? index set m) := by
  rw [failuresAt, h]

theorem failure?_eq_some_iff {m : Model} {b : Backend} {f : Failure} :
    failure? index set m b = some f ↔
      ∃ e, b.output set m = .error e ∧ f = ⟨index, set, .emitting b.target, e⟩ := by
  rw [failure?]
  cases b.output set m <;> simp [eq_comm]

theorem mem_failuresAt {f : Failure} (h : f ∈ p.failuresAt backends index set) :
    f.index = index ∧ f.set = set := by
  cases hbuild : p.buildAt index set with
  | error e =>
    rw [failuresAt_of_error hbuild, List.mem_singleton] at h
    exact h ▸ ⟨rfl, rfl⟩
  | ok m =>
    rw [failuresAt_of_ok hbuild] at h
    obtain ⟨b, -, hf⟩ := List.mem_filterMap.1 h
    obtain ⟨e, -, rfl⟩ := failure?_eq_some_iff.1 hf
    exact ⟨rfl, rfl⟩

/-! ## The replay -/

/-- The errors of the jobs for a set are, as failures, those of the backends. -/
theorem map_errorsOf_outcomesAt {m : Model} (h : p.buildAt index set = .ok m) :
    (errorsOf (p.outcomesAt backends index set)).map
        (fun (job, error) => (⟨index, set, .emitting job.target, error⟩ : Failure)) =
      p.failuresAt backends index set := by
  rw [outcomesAt_of_ok h, errorsOf, List.filterMap_map, List.map_filterMap, failuresAt_of_ok h]
  calc (List.finRange backends.length).filterMap _
      = (List.finRange backends.length).filterMap (failure? index set m ∘ backends.get) := by
        refine List.filterMap_congr fun b _ => ?_
        rw [Function.comp_apply, Function.comp_apply, failure?]
        cases (backends.get b).output set m <;> rfl
    _ = ((List.finRange backends.length).map backends.get).filterMap (failure? index set m) :=
        List.filterMap_map.symm
    _ = backends.filterMap (failure? index set m) := by rw [List.map_get_finRange]

/-- A set takes its own errors and leaves those of the sets behind it. -/
theorem takeFailures_errorsOf {later : List (JobId backends × Error)}
    (hlater : ∀ entry ∈ later, entry.1.index ≠ index) :
    takeFailures index set (errorsOf (p.outcomesAt backends index set) ++ later)
      (p.buildAt index set) = (p.failuresAt backends index set, later) := by
  cases h : p.buildAt index set with
  | error e => rw [takeFailures, outcomesAt_of_error h, failuresAt_of_error h]; rfl
  | ok m =>
    have hown : ∀ entry ∈ errorsOf (p.outcomesAt backends index set),
        decide (entry.1.index = index) = true := fun entry hentry =>
      decide_eq_true (mem_outcomesAt_iff.1 (mem_errorsOf_iff.1 hentry)).1
    have hnone : later.takeWhile (fun entry => decide (entry.1.index = index)) = [] :=
      List.takeWhile_eq_nil_iff.2 fun h => by simpa using hlater _ (List.getElem_mem h)
    have hall : later.dropWhile (fun entry => decide (entry.1.index = index)) = later :=
      List.dropWhile_eq_self_iff.2 fun h => by simpa using hlater _ (List.getElem_mem h)
    rw [takeFailures, List.span_eq_takeWhile_dropWhile, List.takeWhile_append_of_pos hown,
      List.dropWhile_append_of_pos hown, hnone, hall, List.append_nil]
    exact congrArg (·, later) (map_errorsOf_outcomesAt h)

/-- What is replayed for sets at rising positions is the failures of each in turn. -/
theorem replay_eq (policy : FailurePolicy) {entries : List (EntrySet × Nat)}
    (hrising : entries.Pairwise fun a b => a.2 < b.2) :
    replay policy (entries.map fun entry => ((entry.1, p.buildAt entry.2 entry.1), entry.2))
        (errorsOf (entries.flatMap fun entry => p.outcomesAt backends entry.2 entry.1)) =
      (do
        let failures := entries.flatMap fun entry => p.failuresAt backends entry.2 entry.1
        policy.admit failures
        return failures) := by
  induction entries with
  | nil => cases policy <;> rfl
  | cons entry rest ih =>
    obtain ⟨hfirst, hrest⟩ := List.pairwise_cons.1 hrising
    have hlater : ∀ error ∈ errorsOf
        (rest.flatMap fun entry => p.outcomesAt backends entry.2 entry.1),
        error.1.index ≠ entry.2 := by
      intro error hmem
      obtain ⟨behind, hbehind, hjob⟩ := List.mem_flatMap.1 (mem_errorsOf_iff.1 hmem)
      rw [(mem_outcomesAt_iff.1 hjob).1]
      exact Nat.ne_of_gt (hfirst behind hbehind)
    rw [List.map_cons, List.flatMap_cons, errorsOf_append, replay, takeFailures_errorsOf hlater,
      List.flatMap_cons]
    simp only [ih hrest, FailurePolicy.admit_append, bind_assoc, pure_bind]

/-! ## Answers -/

theorem zip_models (p : Program) (sets : List EntrySet) :
    (sets.zip (p.models sets)).zipIdx =
      sets.zipIdx.map fun entry => ((entry.1, p.buildAt entry.2 entry.1), entry.2) := by
  refine List.ext_getElem (by simp [models]) fun i hi hi' => ?_
  simp [models]

theorem pairwise_zipIdx (sets : List EntrySet) :
    sets.zipIdx.Pairwise fun a b => a.2 < b.2 := by
  refine List.pairwise_iff_getElem.2 fun i j hi hj hlt => ?_
  simpa using hlt

/-- The answer of a run once its outputs came in an order. -/
theorem conclude_eq (p : Program) (backends : List Backend) (policy : FailurePolicy)
    (sets : List EntrySet) (arrivals : List (Nat × Output)) :
    conclude policy sets (p.models sets) (errorsOf (p.outcomes backends sets)) arrivals =
      (do
        policy.admit (p.failures backends sets)
        return .collect (backends.map (·.target)) arrivals (p.failures backends sets)) := by
  rw [conclude, zip_models, outcomes_eq_flatMap, replay_eq policy (pairwise_zipIdx sets)]
  simp only [failures, bind_assoc, pure_bind]

/-- What a run comes to when nothing ends it early. -/
def report (p : Program) (backends : List Backend) (sets : List EntrySet) : Result :=
  .collect (backends.map (·.target)) (p.outputs backends sets) (p.failures backends sets)

/-- A run ends at its first failure or comes to its report. -/
theorem run_eq (p : Program) (backends : List Backend) (policy : FailurePolicy)
    (sets : List EntrySet) :
    p.run backends policy sets =
      (do policy.admit (p.failures backends sets); return p.report backends sets) :=
  p.conclude_eq backends policy sets _

/-- A run that reports everything always comes to its report. -/
theorem run_reportAll (p : Program) (backends : List Backend) (sets : List EntrySet) :
    p.run backends .reportAll sets = .ok (p.report backends sets) :=
  p.run_eq backends .reportAll sets

/-! ## Failures of all sets -/

theorem mem_failures_iff {f : Failure} :
    f ∈ p.failures backends sets ↔
      sets[f.index]? = some f.set ∧ f ∈ p.failuresAt backends f.index f.set := by
  simp only [failures, List.mem_flatMap, Prod.exists, List.mem_zipIdx_iff_getElem?]
  constructor
  · rintro ⟨set, index, hset, hf⟩
    obtain ⟨rfl, rfl⟩ := mem_failuresAt hf
    exact ⟨hset, hf⟩
  · rintro ⟨hset, hf⟩
    exact ⟨f.set, f.index, hset, hf⟩

/-- The failures of one set are those it has by itself. -/
theorem filter_index_failures (h : sets[index]? = some set) :
    (p.failures backends sets).filter (·.index = index) = p.failuresAt backends index set := by
  obtain ⟨before, after, hsplit⟩ := List.append_of_mem (List.mem_zipIdx_iff_getElem?.2 h :
    (set, index) ∈ sets.zipIdx)
  have hself : (p.failuresAt backends index set).filter (·.index = index) =
      p.failuresAt backends index set :=
    List.filter_eq_self.2 fun f hf => by simpa using (mem_failuresAt hf).1
  have hothers : ∀ l : List (EntrySet × Nat), (∀ entry ∈ l, entry.2 ≠ index) →
      (l.flatMap fun entry => p.failuresAt backends entry.2 entry.1).filter (·.index = index) =
        [] := by
    intro l hl
    refine List.filter_eq_nil_iff.2 fun f hf => ?_
    obtain ⟨entry, hentry, hf⟩ := List.mem_flatMap.1 hf
    simpa [(mem_failuresAt hf).1] using hl entry hentry
  obtain ⟨-, hafter, hbefore⟩ := List.pairwise_append.1 (hsplit ▸ pairwise_zipIdx sets)
  rw [failures, hsplit, List.flatMap_append, List.flatMap_cons, List.filter_append,
    List.filter_append, hself,
    hothers before fun entry hentry => Nat.ne_of_lt (hbefore entry hentry _ (.head _)),
    hothers after fun entry hentry => Nat.ne_of_gt (List.rel_of_pairwise_cons hafter hentry),
    List.nil_append, List.append_nil]

/-- Failures in the order of the request go by the positions of their sets. -/
theorem pairwise_index_failures (p : Program) (backends : List Backend)
    (sets : List EntrySet) :
    (p.failures backends sets).Pairwise fun a b => a.index ≤ b.index := by
  refine List.pairwise_flatMap.2 ⟨fun entry _ => ?_, ?_⟩
  · refine List.pairwise_of_forall_mem_list fun f hf g hg => ?_
    exact Nat.le_of_eq ((mem_failuresAt hf).1.trans (mem_failuresAt hg).1.symm)
  · refine (pairwise_zipIdx sets).imp fun hlt f hf g hg => ?_
    rw [(mem_failuresAt hf).1, (mem_failuresAt hg).1]
    exact Nat.le_of_lt hlt

/-- Backends in the order of their targets fail in that order. -/
theorem sorted_failures
    (h : backends.Pairwise fun a b => a.target.rank ≤ b.target.rank) :
    (p.failures backends sets).Pairwise fun a b => a.precedes b = true := by
  refine List.pairwise_flatMap.2 ⟨fun entry _ => ?_, ?_⟩
  · cases hbuild : p.buildAt entry.2 entry.1 with
    | error e =>
      rw [failuresAt_of_error hbuild]
      exact List.pairwise_singleton _ _
    | ok m =>
      rw [failuresAt_of_ok hbuild]
      refine List.pairwise_filterMap.2 (h.imp fun hle f hf g hg => ?_)
      obtain ⟨_, -, rfl⟩ := failure?_eq_some_iff.1 hf
      obtain ⟨_, -, rfl⟩ := failure?_eq_some_iff.1 hg
      exact Failure.precedes_iff.2 (.inr ⟨rfl, Nat.succ_le_succ hle⟩)
  · refine (pairwise_zipIdx sets).imp fun hlt f hf g hg => ?_
    refine Failure.precedes_iff.2 (.inl ?_)
    rw [(mem_failuresAt hf).1, (mem_failuresAt hg).1]
    exact hlt

end Program

end Shading
