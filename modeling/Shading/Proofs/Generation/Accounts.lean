import Shading.Proofs.Generation.Arrivals
import Shading.Proofs.Generation.Policies

/-!
# Every job is accounted for

A report on the targets that are registered by default accounts for each set of the
request and each target (`Accounts`).  A set that is refused has one failure and no
output.  A set that is built has, for each target, either its output or one failure
with the error of the first stage that is not written.  Nothing else is reported.

What is reported for a set is what is reported when it is asked for alone, up to its
position (`Failure.movedTo`), so sets do not meddle with each other.
-/

namespace Shading

/-! ## The standard backends -/

theorem Target.mem_all (t : Target) : t ∈ Target.all := by cases t <;> decide

/-- Of all targets one is the target. -/
theorem Target.filterMap_all {α : Type} (g : Target → Option α) (t : Target) :
    (Target.all.filterMap fun x => if x = t then g x else none) = (g t).toList := by
  cases t <;> simp [Target.all, List.filterMap_cons] <;> cases g _ <;> rfl

/-- The backends that are registered by default. -/
def standardBackends (fixup : Option Fixup) : List Backend :=
  Registry.standard.createAll fixup Registry.standard.targets

theorem standardBackends_eq (fixup : Option Fixup) :
    standardBackends fixup = Target.all.map fun t => (t.language fixup).backend := rfl

theorem sorted_standardBackends (fixup : Option Fixup) :
    (standardBackends fixup).Pairwise fun a b => a.target.rank ≤ b.target.rank := by
  simp [standardBackends_eq, Target.all, Target.rank]

theorem mem_standardBackends_iff {fixup : Option Fixup} {b : Backend} :
    b ∈ standardBackends fixup ↔ b = (b.target.language fixup).backend := by
  rw [standardBackends_eq, List.mem_map]
  constructor
  · rintro ⟨t, -, rfl⟩
    rw [Target.target_backend_language]
  · intro h
    exact ⟨b.target, Target.mem_all _, h.symm⟩

/-- Every language has all stages. -/
theorem Target.stageSource_language (t : Target) (fixup : Option Fixup) (m : Model)
    (stage : Stage) :
    (t.language fixup).backend.stageSource m stage = (t.language fixup).generate m stage := by
  have hcapabilities : (t.language fixup).backend.capabilities = (t.language none).capabilities := by
    cases t <;> rfl
  refine if_pos ?_
  rw [hcapabilities]
  cases t <;> cases stage <;> decide

/-! ## Outcomes -/

/-- The failure of a set, reported as that of the set at another position.  The error of
an empty set names the position. -/
def Failure.movedTo (index : Nat) (f : Failure) : Failure :=
  { f with index, error := if f.set.isEmpty then .entryNotFound (.anyInSet index) else f.error }

/-- A set is refused: it is empty, or it is not built. -/
inductive Program.Refuses (p : Program) (index : Nat) (set : EntrySet) : Error → Prop where
  | empty (isEmpty : set.isEmpty = true) : Refuses p index set (.entryNotFound (.anyInSet index))
  | unbuilt {e : Error} (nonempty : set.isEmpty = false) (build : p.build set = .error e) :
      Refuses p index set e

/-- A set is built. -/
def Program.Builds (p : Program) (set : EntrySet) (m : Model) : Prop :=
  set.isEmpty = false ∧ p.build set = .ok m

/-- An output holds what a language writes for a model, stage by stage. -/
structure Output.WrittenIn (l : Language) (set : EntrySet) (m : Model) (o : Output) : Prop where
  target_eq : o.target = l.dialect.target
  set_eq : o.set = set
  model_eq : o.model = m
  source : ∀ stage ∈ set.stages, ∃ text, l.generate m stage = .ok text ∧ o.source? stage = some text
  /-- Other stages have no source. -/
  other : ∀ stage, stage ∉ set.stages → o.source? stage = none

/-- The first stage of a set that a language does not write, with the error. -/
def Language.FailsAt (l : Language) (set : EntrySet) (m : Model) (e : Error) : Prop :=
  ∃ before stage after, set.stages = before ++ stage :: after ∧
    (∀ s ∈ before, ∃ text, l.generate m s = .ok text) ∧ l.generate m stage = .error e

theorem Program.buildAt_eq_error_iff {p : Program} {index : Nat} {set : EntrySet} {e : Error} :
    p.buildAt index set = .error e ↔ p.Refuses index set e := by
  rw [buildAt]
  constructor
  · intro h
    split at h
    · next hempty => cases h; exact .empty hempty
    · next hempty => exact .unbuilt (by simpa using hempty) h
  · rintro (hempty | ⟨hempty, h⟩)
    · rw [if_pos hempty]
    · rw [if_neg (by simp [hempty]), h]

theorem Program.buildAt_eq_ok_iff {p : Program} {index : Nat} {set : EntrySet} {m : Model} :
    p.buildAt index set = .ok m ↔ p.Builds set m := by
  rw [buildAt, Builds]
  cases set.isEmpty <;> simp

/-- What stands in step with names is found by name. -/
theorem lookup_of_forall₂ {R : Stage → String → Prop} {stages : List Stage}
    {sources : List (Stage × String)}
    (h : List.Forall₂ (fun stage entry => entry.1 = stage ∧ R stage entry.2) stages sources)
    (stage : Stage) :
    (stage ∈ stages → ∃ text, R stage text ∧ sources.lookup stage = some text) ∧
      (stage ∉ stages → sources.lookup stage = none) := by
  induction h with
  | nil => simp
  | @cons first entry stages sources hfirst _ ih =>
    obtain ⟨name, text⟩ := entry
    obtain ⟨rfl, htext⟩ := hfirst
    rw [List.lookup_cons]
    by_cases hstage : stage = name
    · subst hstage
      simpa using htext
    · simpa [hstage, beq_eq_false_iff_ne.2 hstage] using ih

section Output

variable {t : Target} {fixup : Option Fixup} {set : EntrySet} {m : Model}

theorem writtenIn_of_output {o : Output}
    (h : (t.language fixup).backend.output set m = .ok o) :
    o.WrittenIn (t.language fixup) set m := by
  obtain ⟨htarget, hset, hmodel, hsources⟩ := Backend.output_eq_ok_iff.1 h
  simp only [Backend.sources_eq_ok_iff, Target.stageSource_language] at hsources
  have hstages :=
    lookup_of_forall₂ (R := fun s text => (t.language fixup).generate m s = .ok text) hsources
  exact ⟨htarget, hset, hmodel, fun stage => (hstages stage).1, fun stage => (hstages stage).2⟩

theorem failsAt_of_output {e : Error} (h : (t.language fixup).backend.output set m = .error e) :
    (t.language fixup).FailsAt set m e := by
  obtain ⟨before, stage, after, hsplit, hbefore, hstage⟩ :=
    exists_of_mapM_error (Backend.output_eq_error_iff.1 h)
  refine ⟨before, stage, after, hsplit, fun s hs => ?_, ?_⟩
  · obtain ⟨entry, hentry⟩ := hbefore s hs
    simp only [Target.stageSource_language, bind_eq_ok] at hentry
    obtain ⟨text, htext, -⟩ := hentry
    exact ⟨text, htext⟩
  · rw [Target.stageSource_language] at hstage
    cases hgenerate : (t.language fixup).generate m stage with
    | error e' =>
      rw [hgenerate] at hstage
      obtain rfl := Except.error.inj hstage
      rfl
    | ok text => rw [hgenerate] at hstage; cases hstage

end Output

namespace Program

variable {p : Program} {sets : List EntrySet} {fixup : Option Fixup}

/-! ## Accounts -/

/-- What is reported for one target on a set that is built: its output, or else its failure. -/
inductive TargetAccount (fixup : Option Fixup) (index : Nat) (set : EntrySet) (m : Model)
    (t : Target) : Option Output → List Failure → Prop where
  | output {o : Output} (written : o.WrittenIn (t.language fixup) set m) :
      TargetAccount fixup index set m t (some o) []
  | failure {e : Error} (fails : (t.language fixup).FailsAt set m e) :
      TargetAccount fixup index set m t none [⟨index, set, .emitting t, e⟩]

/-- What is reported for one set, given the outputs found for it and its failures. -/
inductive SetAccount (p : Program) (fixup : Option Fixup) (index : Nat) (set : EntrySet)
    (found : Target → Option Output) (failures : List Failure) : Prop where
  | refused {e : Error} (refuses : p.Refuses index set e)
      (failure : failures = [⟨index, set, .building, e⟩]) (noOutput : ∀ t, found t = none)
  | built {m : Model} (builds : p.Builds set m)
      (targets : ∀ t, TargetAccount fixup index set m t (found t)
        (failures.filter fun f => f.phase = .emitting t))
      (emitting : ∀ f ∈ failures, ∃ t, f.phase = .emitting t)

/-- A report accounts for every set of a request and every target. -/
structure Accounts (p : Program) (fixup : Option Fixup) (sets : List EntrySet) (report : Result)
    (found : Place → Option Output) : Prop where
  targets : report.outputs.map Prod.fst = Target.all
  /-- The outputs for a target, by the index of the set. -/
  outputs : ∀ t, report.outputsFor t =
    (List.range sets.length).filterMap fun index => found ⟨t, index⟩
  /-- The failures are failures of the sets, in their order. -/
  failures : ∀ f ∈ report.failures, sets[f.index]? = some f.set
  sorted : report.failures.Pairwise fun a b => a.index ≤ b.index
  each : ∀ index set, sets[index]? = some set →
    p.SetAccount fixup index set (fun t => found ⟨t, index⟩)
      (report.failures.filter (·.index = index))

/-! ## Reports on the standard backends -/

/-- The output of the job of a target on the set at a position. -/
def found (p : Program) (fixup : Option Fixup) (sets : List EntrySet) (place : Place) :
    Option Output :=
  (Collected.ofList (p.outputs (standardBackends fixup) sets)).lookup place

theorem found_eq_some_iff {t : Target} {index : Nat} {o : Output} :
    p.found fixup sets ⟨t, index⟩ = some o ↔
      p.Job sets index (t.language fixup).backend (.ok o) := by
  have hconsistent : p.Consistent (standardBackends fixup) sets :=
    consistent_of_faithful (faithful_standard fixup)
  rw [found, lookup_eq_some_iff_job hconsistent]
  constructor
  · rintro ⟨b, hb, rfl, hjob⟩
    exact mem_standardBackends_iff.1 hb ▸ hjob
  · intro hjob
    refine ⟨_, mem_standardBackends_iff.2 ?_, Target.target_backend_language t fixup, hjob⟩
    rw [Target.target_backend_language]

theorem outputsFor_report (p : Program) (fixup : Option Fixup) (sets : List EntrySet)
    (t : Target) : (p.report (standardBackends fixup) sets).outputsFor t =
      (List.range sets.length).filterMap fun index => p.found fixup sets ⟨t, index⟩ :=
  Arrives.outputsFor (List.Perm.refl _) t

theorem failures_report_standard (p : Program) (fixup : Option Fixup) (sets : List EntrySet) :
    (p.report (standardBackends fixup) sets).failures =
      p.failures (standardBackends fixup) sets :=
  failures_report_of_sorted (sorted_standardBackends fixup)

section Set

variable {index : Nat} {set : EntrySet}

theorem found_of_error {e : Error} (hset : sets[index]? = some set)
    (h : p.buildAt index set = .error e) (t : Target) : p.found fixup sets ⟨t, index⟩ = none := by
  refine Option.eq_none_iff_forall_ne_some.2 fun o ho => ?_
  obtain ⟨set', m, hset', hm, -⟩ := found_eq_some_iff.1 ho
  obtain rfl := Option.some.inj (hset.symm.trans hset')
  cases h.symm.trans hm

theorem found_of_ok {m : Model} (hset : sets[index]? = some set)
    (h : p.buildAt index set = .ok m) (t : Target) :
    p.found fixup sets ⟨t, index⟩ = ((t.language fixup).backend.output set m).toOption := by
  refine Option.ext fun o => found_eq_some_iff.trans ?_
  have hjob : p.Job sets index (t.language fixup).backend
      ((t.language fixup).backend.output set m) := ⟨set, m, hset, h, rfl⟩
  constructor
  · intro ho
    rw [← ho.unique hjob]
    rfl
  · intro ho
    cases hout : (t.language fixup).backend.output set m with
    | error e => rw [hout] at ho; cases ho
    | ok x =>
      rw [hout] at ho hjob
      obtain rfl := Option.some.inj ho
      exact hjob

/-- Of the failures on a model, one target has those of its own backend. -/
theorem filter_phase_failuresAt {m : Model} (h : p.buildAt index set = .ok m) (t : Target) :
    (p.failuresAt (standardBackends fixup) index set).filter (·.phase = .emitting t) =
      (failure? index set m (t.language fixup).backend).toList := by
  rw [failuresAt_of_ok h, standardBackends_eq, List.filterMap_map, List.filter_filterMap,
    ← Target.filterMap_all fun x => failure? index set m (x.language fixup).backend]
  refine List.filterMap_congr fun x _ => ?_
  rw [Function.comp_apply, failure?]
  cases (x.language fixup).backend.output set m with
  | ok o => simp
  | error e => simp [Option.filter]

/-- What is reported for a set, whatever the other sets are. -/
theorem setAccount (hset : sets[index]? = some set) :
    p.SetAccount fixup index set (fun t => p.found fixup sets ⟨t, index⟩)
      (p.failuresAt (standardBackends fixup) index set) := by
  cases hbuild : p.buildAt index set with
  | error e =>
    exact .refused (buildAt_eq_error_iff.1 hbuild) (failuresAt_of_error hbuild)
      (found_of_error hset hbuild)
  | ok m =>
    refine .built (buildAt_eq_ok_iff.1 hbuild) (fun t => ?_) fun f hf => ?_
    · rw [found_of_ok hset hbuild, filter_phase_failuresAt hbuild, failure?]
      cases hout : (t.language fixup).backend.output set m with
      | ok o => exact .output (writtenIn_of_output hout)
      | error e =>
        simp only [Target.target_backend_language]
        exact .failure (failsAt_of_output hout)
    · rw [failuresAt_of_ok hbuild] at hf
      obtain ⟨b, -, hb⟩ := List.mem_filterMap.1 hf
      obtain ⟨e, -, rfl⟩ := failure?_eq_some_iff.1 hb
      exact ⟨b.target, rfl⟩

/-- A set alone is built as it is at any position. -/
theorem found_alone (hset : sets[index]? = some set) (t : Target) :
    p.found fixup [set] ⟨t, 0⟩ = p.found fixup sets ⟨t, index⟩ := by
  refine Option.ext fun o => ?_
  rw [found_eq_some_iff, found_eq_some_iff]
  simp only [Job, hset, List.getElem?_cons_zero, Option.some.injEq, exists_and_left,
    exists_eq_left', buildAt_eq_ok_iff]

theorem map_movedTo_failuresAt (p : Program) (fixup : Option Fixup) (index : Nat)
    (set : EntrySet) :
    (p.failuresAt (standardBackends fixup) 0 set).map (Failure.movedTo index) =
      p.failuresAt (standardBackends fixup) index set := by
  cases hbuild : p.buildAt 0 set with
  | error e =>
    rw [failuresAt_of_error hbuild]
    rcases buildAt_eq_error_iff.1 hbuild with hempty | ⟨hempty, he⟩
    · rw [failuresAt_of_error (buildAt_eq_error_iff.2 (.empty hempty))]
      simp [Failure.movedTo, hempty]
    · rw [failuresAt_of_error (buildAt_eq_error_iff.2 (.unbuilt hempty he))]
      simp [Failure.movedTo, hempty]
  | ok m =>
    have hbuilds := buildAt_eq_ok_iff.1 hbuild
    rw [failuresAt_of_ok hbuild, failuresAt_of_ok (buildAt_eq_ok_iff.2 hbuilds),
      List.map_filterMap]
    refine List.filterMap_congr fun b _ => ?_
    rw [failure?, failure?]
    cases b.output set m <;> simp [Failure.movedTo, hbuilds.1]

end Set

/-- A report on the standard backends accounts for every set and every target, and each
set is reported on as if it were asked for alone. -/
theorem accounts_of_generate (p : Program) (fixup : Option Fixup) (sets : List EntrySet) :
    ∃ report found,
      p.generate .standard (.listed sets) ⟨none, some .reportAll, fixup⟩ = .ok report ∧
      p.Accounts fixup sets report found ∧
      ∀ index set, sets[index]? = some set → ∃ alone,
        p.generate .standard (.listed [set]) ⟨none, some .reportAll, fixup⟩ = .ok alone ∧
        (∀ t, alone.outputsFor t = (found ⟨t, index⟩).toList) ∧
        alone.failures.map (Failure.movedTo index) = report.failures.filter (·.index = index) := by
  refine ⟨p.report (standardBackends fixup) sets, p.found fixup sets, p.run_reportAll _ _, {
    targets := ?_
    outputs := p.outputsFor_report fixup sets
    failures := ?_
    sorted := ?_
    each := ?_ }, ?_⟩
  · exact (keeps_reportOn (.refl _)).targets
  · rw [failures_report_standard]
    exact fun f hf => (mem_failures_iff.1 hf).1
  · rw [failures_report_standard]
    exact p.pairwise_index_failures _ sets
  · intro index set hset
    rw [failures_report_standard, filter_index_failures hset]
    exact setAccount hset
  · intro index set hset
    refine ⟨p.report (standardBackends fixup) [set], p.run_reportAll _ _, fun t => ?_, ?_⟩
    · rw [outputsFor_report, ← found_alone hset]
      cases h : p.found fixup [set] ⟨t, 0⟩ <;> simp [h]
    · rw [failures_report_standard, failures_report_standard, filter_index_failures hset,
        ← map_movedTo_failuresAt]
      simp [failures]

end Program

end Shading
