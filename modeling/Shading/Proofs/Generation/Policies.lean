import Shading.Proofs.Generation.Replay

/-!
# What the policies answer

A run that ends at the first failure answers with the failure that comes first in the
order of the request: by the position of the set, then by the position of the backend
(`FirstFailure`).  A run that reports everything has that failure among its own, and
the two come to the same when nothing fails (`policies_of_generate`).

Reported failures stand in the order of sets and of targets.  So the failure that ends
a run stands first in a report when backends are asked for in the order of their
targets, and may stand behind another when they are not (`sample_failures_reordered`).
-/

namespace Shading

/-! ## Reported failures -/

theorem Failure.precedes_trans {a b c : Failure} (hab : a.precedes b = true)
    (hbc : b.precedes c = true) : a.precedes c = true := by
  rw [Failure.precedes_iff] at hab hbc ⊢
  omega

theorem Failure.precedes_total (a b : Failure) : (a.precedes b || b.precedes a) = true := by
  rw [Bool.or_eq_true, Failure.precedes_iff, Failure.precedes_iff]
  omega

namespace Program

variable {p : Program} {backends : List Backend} {sets : List EntrySet} {index : Nat}
  {set : EntrySet} {f : Failure}

theorem failures_report (p : Program) (backends : List Backend) (sets : List EntrySet) :
    (p.report backends sets).failures =
      (p.failures backends sets).mergeSort Failure.precedes := rfl

/-- A report keeps every failure, each as often as it occurs. -/
theorem perm_failures_report (p : Program) (backends : List Backend) (sets : List EntrySet) :
    (p.report backends sets).failures.Perm (p.failures backends sets) :=
  List.mergeSort_perm _ _

theorem sorted_failures_report (p : Program) (backends : List Backend) (sets : List EntrySet) :
    (p.report backends sets).failures.Pairwise fun a b => a.precedes b = true := by
  have htrans : ∀ a b c : Failure, a.precedes b → b.precedes c → a.precedes c :=
    fun _ _ _ => Failure.precedes_trans
  exact List.pairwise_mergeSort htrans Failure.precedes_total _

/-- Backends in the order of their targets have their failures reported in the order of
the request. -/
theorem failures_report_of_sorted
    (h : backends.Pairwise fun a b => a.target.rank ≤ b.target.rank) :
    (p.report backends sets).failures = p.failures backends sets :=
  List.mergeSort_of_pairwise (sorted_failures h)

/-! ## The first failure -/

/-- Everything goes well for the set at a position. -/
def Succeeds (p : Program) (backends : List Backend) (index : Nat) (set : EntrySet) : Prop :=
  ∃ m, p.buildAt index set = .ok m ∧ ∀ b ∈ backends, ∃ o, b.output set m = .ok o

/-- What goes wrong first for the set at a position: the set is refused, or a backend
fails where the backends before it succeed. -/
inductive FailsFirst (p : Program) (backends : List Backend) (index : Nat) (set : EntrySet) :
    Phase → Error → Prop where
  | building {e : Error} (refused : p.buildAt index set = .error e) :
      FailsFirst p backends index set .building e
  | emitting {m : Model} {before after : List Backend} {b : Backend} {e : Error}
      (built : p.buildAt index set = .ok m) (split : backends = before ++ b :: after)
      (earlier : ∀ x ∈ before, ∃ o, x.output set m = .ok o) (failed : b.output set m = .error e) :
      FailsFirst p backends index set (.emitting b.target) e

/-- A failure is the first in the order of the request. -/
structure FirstFailure (p : Program) (backends : List Backend) (sets : List EntrySet)
    (f : Failure) : Prop where
  set_at : sets[f.index]? = some f.set
  /-- All goes well for the sets before. -/
  earlier : ∀ i < f.index, ∀ set, sets[i]? = some set → p.Succeeds backends i set
  failed : p.FailsFirst backends f.index f.set f.phase f.error

theorem failure?_eq_none_iff {m : Model} {b : Backend} :
    failure? index set m b = none ↔ ∃ o, b.output set m = .ok o := by
  rw [failure?]
  cases b.output set m <;> simp

theorem failuresAt_eq_nil_iff :
    p.failuresAt backends index set = [] ↔ p.Succeeds backends index set := by
  cases h : p.buildAt index set with
  | error e => simp [failuresAt_of_error h, Succeeds, h]
  | ok m => simp [failuresAt_of_ok h, Succeeds, h, List.filterMap_eq_nil_iff,
      failure?_eq_none_iff]

theorem failsFirst_of_failuresAt {rest : List Failure}
    (h : p.failuresAt backends index set = f :: rest) :
    p.FailsFirst backends index set f.phase f.error := by
  cases hbuild : p.buildAt index set with
  | error e =>
    rw [failuresAt_of_error hbuild] at h
    cases h
    exact .building hbuild
  | ok m =>
    rw [failuresAt_of_ok hbuild] at h
    obtain ⟨before, b, after, hsplit, hbefore, hf, -⟩ := List.filterMap_eq_cons_iff.1 h
    obtain ⟨e, he, rfl⟩ := failure?_eq_some_iff.1 hf
    exact .emitting hbuild hsplit (fun x hx => failure?_eq_none_iff.1 (hbefore x hx)) he

/-- What stands first in the order of the request fails first. -/
theorem firstFailure_of_failures {rest : List Failure}
    (h : p.failures backends sets = f :: rest) :
    p.FirstFailure backends sets f := by
  have hmem : f ∈ p.failures backends sets := h ▸ .head _
  have hset : sets[f.index]? = some f.set := (mem_failures_iff.1 hmem).1
  refine ⟨hset, fun i hi set hi_set => failuresAt_eq_nil_iff.1 ?_, ?_⟩
  · -- A failure of an earlier set would stand before the first one.
    rw [← filter_index_failures hi_set, h]
    have hsorted := List.pairwise_cons.1 (h ▸ p.pairwise_index_failures backends sets)
    refine List.filter_eq_nil_iff.2 fun g hg => ?_
    have hle : f.index ≤ g.index := by
      rcases List.mem_cons.1 hg with rfl | hg
      · exact Nat.le_refl _
      · exact hsorted.1 g hg
    simp only [decide_eq_true_eq]
    omega
  · have hat : p.failuresAt backends f.index f.set = f :: rest.filter (·.index = f.index) := by
      rw [← filter_index_failures hset, h, List.filter_cons_of_pos (by simp)]
    exact failsFirst_of_failuresAt hat

/-! ## Answers -/

/-- How the answer of a run that ends at the first failure goes with a report. -/
structure PoliciesAgree (p : Program) (backends : List Backend) (sets : List EntrySet)
    (failFast : Except Error Result) (report : Result) : Prop where
  /-- The run ends early exactly when a failure is reported. -/
  error_iff : (∃ e, failFast = .error e) ↔ report.failures ≠ []
  /-- It ends with the first failure of the request, which is reported. -/
  first : ∀ e, failFast = .error e →
    ∃ f ∈ report.failures, f.error = e ∧ p.FirstFailure backends sets f
  /-- Failures are reported by sets, then by targets. -/
  reported : report.failures.Pairwise fun a b => a.precedes b = true
  /-- The report has it first when the backends stand in the order of their targets. -/
  reported_first : backends.Pairwise (fun a b => a.target.rank ≤ b.target.rank) →
    ∀ e, failFast = .error e →
      ∃ f, report.failures.head? = some f ∧ f.error = e ∧ p.FirstFailure backends sets f
  /-- What comes to an end is the report. -/
  ok : ∀ result, failFast = .ok result → result = report

theorem policies_of_run (p : Program) (backends : List Backend) (sets : List EntrySet) :
    p.PoliciesAgree backends sets (p.run backends .failFast sets) (p.report backends sets) := by
  cases hf : p.failures backends sets with
  | nil =>
    have hrun : p.run backends .failFast sets = .ok (p.report backends sets) := by
      rw [run_eq, hf]
      rfl
    have hnil : (p.report backends sets).failures = [] := by
      rw [failures_report, hf, List.mergeSort_nil]
    rw [hrun]
    exact ⟨by simp [hnil], by simp, p.sorted_failures_report .., by simp,
      fun result h => (Except.ok.inj h).symm⟩
  | cons f rest =>
    have hrun : p.run backends .failFast sets = .error f.error := by
      rw [run_eq, hf]
      rfl
    have hmem : f ∈ (p.report backends sets).failures :=
      (p.perm_failures_report backends sets).mem_iff.2 (hf ▸ .head _)
    have hfirst := firstFailure_of_failures hf
    rw [hrun]
    refine ⟨⟨fun _ => List.ne_nil_of_mem hmem, fun _ => ⟨_, rfl⟩⟩, ?_,
      p.sorted_failures_report .., ?_, by simp⟩
    · rintro e ⟨⟩
      exact ⟨f, hmem, rfl, hfirst⟩
    · rintro hsorted e ⟨⟩
      exact ⟨f, by rw [failures_report_of_sorted hsorted, hf, List.head?_cons], rfl, hfirst⟩

/-- The answers of the two policies to one request. -/
theorem policies_of_generate (p : Program) (r : Registry) (request : Request)
    (targets : Option (List Target)) (fixup : Option Fixup) :
    ∃ report, p.generate r request ⟨targets, some .reportAll, fixup⟩ = .ok report ∧
      p.PoliciesAgree (r.createAll fixup (targets.getD r.targets)) (request.entrySets p)
        (p.generate r request ⟨targets, some .failFast, fixup⟩) report :=
  ⟨_, p.run_reportAll _ _, p.policies_of_run _ _⟩

/-- A compute stage that fetches from a multisample texture. -/
def multisampled : Program where
  structs := []
  resources := [⟨"Scene", .texture2DMS, none, .readOnly, none, none⟩]
  functions := [{
    name := "Demo.CS"
    metadata := ⟨some .compute, some ⟨1, 1, 1⟩⟩
    params := []
    result := .void
    body := [.declare "color" (.vector .float 4)
      (some (.call (.intrinsic "Load")
        [.resource "Scene" none, .construct [zero, zero] (some (.vector .int 2)), zero]
        (some (.vector .float 4))))] }]
  shaderSets := []
where
  zero : Surface.Expr := .literal (.int 0) (some (.scalar .int))

/-- The set of the compute stage. -/
def multisampledSet : EntrySet := ⟨none, none, some "Demo.CS"⟩

/-- GLSL ES, and behind it a backend of HLSL for graphics stages only. -/
def esBeforeHlsl : Registry :=
  .ofList [(.glslEs300, fun fixup => (Target.glslEs300.language fixup).backend),
    (.hlsl, fun _ => Hlsl.graphicsOnly.backend)]

/-- GLSL ES has no multisample textures. -/
def esFailure : Failure :=
  ⟨0, multisampledSet, .emitting .glslEs300,
    .unsupportedType .glslEs300 (.resource .texture2DMS .readOnly)⟩

/-- The backend of HLSL has no compute stages. -/
def hlslFailure : Failure :=
  ⟨0, multisampledSet, .emitting .hlsl, .construct "Demo.CS" (.stageNotSupported .hlsl .compute)⟩

/-- GLSL ES is asked first and ends the run, and HLSL stands first in the report. -/
theorem sample_failures_reordered :
    ∃ report, multisampled.generate esBeforeHlsl (.listed [multisampledSet])
        ⟨none, some .reportAll, none⟩ = .ok report ∧
      report.failures = [hlslFailure, esFailure] ∧
      multisampled.generate esBeforeHlsl (.listed [multisampledSet])
        ⟨none, some .failFast, none⟩ = .error esFailure.error ∧
      esFailure.error ≠ hlslFailure.error := by
  have hrequest : multisampled.failures (esBeforeHlsl.createAll none esBeforeHlsl.targets)
      [multisampledSet] = [esFailure, hlslFailure] := rfl
  have hbehind : esFailure.precedes hlslFailure = false := rfl
  have hreported : [esFailure, hlslFailure].mergeSort Failure.precedes =
      [hlslFailure, esFailure] := by simp [List.mergeSort, hbehind]
  exact ⟨_, multisampled.run_reportAll _ _, (failures_report ..).trans (hrequest ▸ hreported), rfl,
    nofun⟩

end Program

end Shading
