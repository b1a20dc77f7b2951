import Shading.Proofs.Generation.Replay
import Shading.Proofs.Model.Building

/-!
# Outputs in any order of arrival

Jobs end in any order, and their outputs arrive in that order.  Whatever the order,
each place that a job writes to is taken, and what is found there was written by a job
of the place (`keeps_reportOn`).  Jobs of different targets or sets have places of their
own.  Jobs with one place are those of backends with one target on one set.

So the order makes no difference exactly when backends of one target write the same
(`arrived_eq_report_iff`).  That is so whenever each factory makes a backend of the
target it is registered under, however often a target is asked for
(`consistent_of_faithful`).
-/

namespace Shading

/-- Lists of what is found are told apart by what is found, if it is found at the same
elements. -/
theorem eq_of_filterMap_eq {α β : Type} {f g : α → Option β} {l : List α}
    (hsome : ∀ a ∈ l, (f a).isSome = (g a).isSome) (h : l.filterMap f = l.filterMap g) :
    ∀ a ∈ l, f a = g a := by
  induction l with
  | nil => exact fun a ha => nomatch ha
  | cons first rest ih =>
    have hfirst := hsome first (.head _)
    have hrest := fun a ha => hsome a (.tail _ ha)
    refine List.forall_mem_cons.2 ?_
    cases hf : f first with
    | none =>
      have hg : g first = none := by simpa [hf] using hfirst
      rw [List.filterMap_cons_none hf, List.filterMap_cons_none hg] at h
      exact ⟨hg.symm, ih hrest h⟩
    | some x =>
      obtain ⟨y, hg⟩ : ∃ y, g first = some y :=
        Option.isSome_iff_exists.1 (by simpa [hf] using hfirst)
      rw [List.filterMap_cons_some hf, List.filterMap_cons_some hg] at h
      obtain ⟨rfl, htail⟩ := List.cons.inj h
      exact ⟨hg.symm, ih hrest htail⟩

namespace Collected

variable {outputs others : List (Nat × Output)} {place : Place} {entry : Nat × Output}

/-- A place is taken when an output came for it. -/
theorem isSome_lookup_ofList_iff :
    ((ofList outputs).lookup place).isSome = true ↔ ∃ entry ∈ outputs, placeOf entry = place := by
  rw [Option.isSome_iff_exists]
  constructor
  · rintro ⟨output, h⟩
    obtain ⟨entry, hmem, hplace, -⟩ := exists_of_lookup_ofList h
    exact ⟨entry, hmem, hplace⟩
  · rintro ⟨entry, hmem, rfl⟩
    exact exists_lookup_ofList hmem

/-- An output can arrive last, and then it is found at its place. -/
theorem exists_perm_lookup (h : entry ∈ outputs) :
    ∃ arrivals, arrivals.Perm outputs ∧
      (ofList arrivals).lookup (placeOf entry) = some entry.2 := by
  obtain ⟨before, after, rfl⟩ := List.append_of_mem h
  refine ⟨(before ++ after) ++ [entry], ?_, ?_⟩
  · exact (List.perm_append_singleton ..).trans List.perm_middle.symm
  · rw [lookup_ofList, List.reverse_append, List.reverse_singleton, List.singleton_append,
      List.find?_cons_of_pos (by simp), Option.map_some]

theorem index_lt_of_mem_ofList {bound : Nat} (hbound : ∀ entry ∈ outputs, entry.1 < bound)
    {kept : Place × Output} (h : kept ∈ ofList outputs) : kept.1.index < bound := by
  obtain ⟨entry, hmem, hplace, -⟩ :=
    exists_of_lookup_ofList ((lookup_eq_some_iff (sorted_ofList outputs)).2 h)
  exact hplace ▸ hbound entry hmem

end Collected

/-! ## Outputs of a result -/

namespace Result

theorem outputsFor_collect {targets : List Target} {outputs : List (Nat × Output)} {bound : Nat}
    (failures : List Failure) (htargets : ∀ entry ∈ outputs, entry.2.target ∈ targets)
    (hbound : ∀ entry ∈ outputs, entry.1 < bound) (target : Target) :
    (collect targets outputs failures).outputsFor target =
      (List.range bound).filterMap fun index =>
        (Collected.ofList outputs).lookup ⟨target, index⟩ := by
  rw [← Collected.outputsFor_eq (Collected.sorted_ofList outputs) target fun _ hentry =>
    Collected.index_lt_of_mem_ofList hbound hentry]
  rw [outputsFor, collect]
  by_cases h : target ∈ targets
  · rw [List.lookup_graph _ (List.mem_eraseDups.2 h), Option.getD_some]
  · -- No output came for a target that was not asked for.
    have hnone : Collected.outputsFor (Collected.ofList outputs) target = [] := by
      refine List.map_eq_nil_iff.2 (List.filter_eq_nil_iff.2 fun kept hkept => ?_)
      obtain ⟨entry, hmem, hplace, -⟩ := Collected.exists_of_lookup_ofList
        ((Collected.lookup_eq_some_iff (Collected.sorted_ofList outputs)).2 hkept)
      rw [decide_eq_true_eq]
      rintro rfl
      exact h (hplace ▸ htargets entry hmem)
    have habsent : List.lookup target (targets.eraseDups.map fun target =>
        (target, (Collected.ofList outputs).outputsFor target)) = none := by
      refine List.lookup_eq_none_iff.2 fun pair hpair => ?_
      obtain ⟨t, ht, rfl⟩ := List.mem_map.1 hpair
      exact bne_iff_ne.2 fun heq => h (heq ▸ List.mem_eraseDups.1 ht)
    rw [habsent, hnone, Option.getD_none]

end Result

namespace Program

variable {p : Program} {backends : List Backend} {sets : List EntrySet}

/-! ## Orders of arrival -/

/-- The outputs of the jobs arrive in an order. -/
def Arrives (p : Program) (backends : List Backend) (sets : List EntrySet)
    (arrivals : List (Nat × Output)) : Prop :=
  arrivals.Perm (p.outputs backends sets)

/-- The answer of a run that reports everything and whose outputs arrive in an order. -/
def arrived (p : Program) (backends : List Backend) (sets : List EntrySet)
    (arrivals : List (Nat × Output)) : Except Error Result :=
  conclude .reportAll sets (p.models sets) (errorsOf (p.outcomes backends sets)) arrivals

/-- What is reported on outputs that arrived in an order. -/
def reportOn (p : Program) (backends : List Backend) (sets : List EntrySet)
    (arrivals : List (Nat × Output)) : Result :=
  .collect (backends.map (·.target)) arrivals (p.failures backends sets)

theorem arrived_eq (p : Program) (backends : List Backend) (sets : List EntrySet)
    (arrivals : List (Nat × Output)) :
    p.arrived backends sets arrivals = .ok (p.reportOn backends sets arrivals) :=
  p.conclude_eq backends .reportAll sets arrivals

/-- Backends of one target write the same output for a set. -/
def Consistent (p : Program) (backends : List Backend) (sets : List EntrySet) : Prop :=
  ∀ a ∈ backends, ∀ b ∈ backends, a.target = b.target →
    ∀ index x y, p.Job sets index a (.ok x) → p.Job sets index b (.ok y) → x = y

/-- What a result keeps for the jobs of a run. -/
structure Keeps (p : Program) (backends : List Backend) (sets : List EntrySet) (r : Result)
    (found : Place → Option Output) : Prop where
  /-- Each target that was asked for is listed once. -/
  targets : r.outputs.map Prod.fst = (backends.map (·.target)).eraseDups
  /-- The outputs for a target are those found at its places, by the index of the set. -/
  outputs : ∀ target, r.outputsFor target =
    (List.range sets.length).filterMap fun index => found ⟨target, index⟩
  /-- What is found was written by a job of the place. -/
  written : ∀ target index o, found ⟨target, index⟩ = some o →
    ∃ b ∈ backends, b.target = target ∧ p.Job sets index b (.ok o)
  /-- The place of a job that succeeds is taken. -/
  taken : ∀ index, ∀ b ∈ backends, ∀ o, p.Job sets index b (.ok o) →
    ∃ kept, found ⟨b.target, index⟩ = some kept

section Arrives

variable {arrivals : List (Nat × Output)}

theorem Arrives.mem_iff (h : p.Arrives backends sets arrivals) {index : Nat} {o : Output} :
    (index, o) ∈ arrivals ↔ ∃ b ∈ backends, p.Job sets index b (.ok o) :=
  (List.Perm.mem_iff h).trans mem_outputs_iff

theorem Arrives.index_lt (h : p.Arrives backends sets arrivals) :
    ∀ entry ∈ arrivals, entry.1 < sets.length := by
  intro entry hmem
  obtain ⟨b, -, hjob⟩ := h.mem_iff.1 hmem
  exact hjob.index_lt

theorem Arrives.outputsFor (h : p.Arrives backends sets arrivals) (target : Target) :
    (p.reportOn backends sets arrivals).outputsFor target =
      (List.range sets.length).filterMap fun index =>
        (Collected.ofList arrivals).lookup ⟨target, index⟩ := by
  refine Result.outputsFor_collect _ (fun entry hmem => ?_) h.index_lt target
  obtain ⟨b, hb, hjob⟩ := h.mem_iff.1 hmem
  exact List.mem_map.2 ⟨b, hb, hjob.target_eq.symm⟩

/-- Whatever the order, the places of the jobs are taken, each by a job of its own. -/
theorem keeps_reportOn (h : p.Arrives backends sets arrivals) :
    p.Keeps backends sets (p.reportOn backends sets arrivals)
      fun place => (Collected.ofList arrivals).lookup place where
  targets := by simp [reportOn, Result.collect, Function.comp_def]
  outputs := h.outputsFor
  written target index o hfound := by
    obtain ⟨⟨i, x⟩, hmem, hplace, rfl⟩ := Collected.exists_of_lookup_ofList hfound
    obtain ⟨rfl, rfl⟩ := Place.mk.inj hplace
    obtain ⟨b, hb, hjob⟩ := h.mem_iff.1 hmem
    exact ⟨b, hb, hjob.target_eq.symm, hjob⟩
  taken index b hb o hjob := by
    have hmem : (index, o) ∈ arrivals := h.mem_iff.2 ⟨b, hb, hjob⟩
    simpa [Collected.placeOf, hjob.target_eq] using Collected.exists_lookup_ofList hmem

end Arrives

/-- Outputs with one place are one output when backends of one target write the same. -/
theorem agreeing_iff_consistent :
    Collected.Agreeing (p.outputs backends sets) ↔ p.Consistent backends sets := by
  constructor
  · intro h a ha b hb htarget index x y hx hy
    refine h (index, x) (mem_outputs_iff.2 ⟨a, ha, hx⟩) (index, y)
      (mem_outputs_iff.2 ⟨b, hb, hy⟩) ?_
    rw [Collected.placeOf, Collected.placeOf, hx.target_eq, hy.target_eq, htarget]
  · rintro h ⟨i, x⟩ hx ⟨j, y⟩ hy hplace
    obtain ⟨htarget, rfl⟩ := Place.mk.inj hplace
    obtain ⟨a, ha, hjobx⟩ := mem_outputs_iff.1 hx
    obtain ⟨b, hb, hjoby⟩ := mem_outputs_iff.1 hy
    exact h a ha b hb (hjobx.target_eq ▸ hjoby.target_eq ▸ htarget) i x y hjobx hjoby

/-- When backends of one target write the same, what is found at a place is what the jobs
of the place wrote. -/
theorem lookup_eq_some_iff_job (h : p.Consistent backends sets) {target : Target} {index : Nat}
    {o : Output} :
    (Collected.ofList (p.outputs backends sets)).lookup ⟨target, index⟩ = some o ↔
      ∃ b ∈ backends, b.target = target ∧ p.Job sets index b (.ok o) := by
  rw [Collected.lookup_ofList_eq_some_iff (agreeing_iff_consistent.2 h)]
  constructor
  · rintro ⟨⟨i, x⟩, hmem, hplace, rfl⟩
    obtain ⟨rfl, rfl⟩ := Place.mk.inj hplace
    obtain ⟨b, hb, hjob⟩ := mem_outputs_iff.1 hmem
    exact ⟨b, hb, hjob.target_eq.symm, hjob⟩
  · rintro ⟨b, hb, rfl, hjob⟩
    refine ⟨(index, o), mem_outputs_iff.2 ⟨b, hb, hjob⟩, ?_, rfl⟩
    rw [Collected.placeOf, hjob.target_eq]

/-- The order of arrival makes no difference exactly when backends of one target write
the same. -/
theorem arrived_eq_report_iff :
    (∀ arrivals, p.Arrives backends sets arrivals →
      p.arrived backends sets arrivals = .ok (p.report backends sets)) ↔
    p.Consistent backends sets := by
  simp only [arrived_eq, Except.ok.injEq]
  rw [← agreeing_iff_consistent]
  constructor
  · intro h x hx y hy hplace
    obtain ⟨xs, hxs, hxlast⟩ := Collected.exists_perm_lookup hx
    obtain ⟨ys, hys, hylast⟩ := Collected.exists_perm_lookup hy
    have houtputs := congrArg (·.outputsFor (Collected.placeOf x).target)
      ((h xs hxs).trans (h ys hys).symm)
    simp only [Arrives.outputsFor hxs, Arrives.outputsFor hys] at houtputs
    have hsame := eq_of_filterMap_eq (fun index _ => ?_) houtputs (Collected.placeOf x).index
      (List.mem_range.2 (Arrives.index_lt (List.Perm.refl _) x hx))
    · rw [hxlast] at hsame
      rw [hplace, hylast] at hsame
      exact Option.some.inj hsame
    · -- The same places are taken, whichever order the outputs arrive in.
      rw [Bool.eq_iff_iff, Collected.isSome_lookup_ofList_iff, Collected.isSome_lookup_ofList_iff]
      simp only [hxs.mem_iff, hys.mem_iff]
  · intro h arrivals harrives
    rw [reportOn, report, Result.collect, Result.collect, Collected.ofList_eq_of_perm h harrives]

/-! ## Backends of registries -/

/-- Factories that make backends of the targets they are registered under make one
backend for each target. -/
theorem consistent_of_faithful {r : Registry} {fixup : Option Fixup} {targets : List Target}
    (h : ∀ entry ∈ r.entries, (entry.2 fixup).target = entry.1) :
    p.Consistent (r.createAll fixup targets) sets := by
  have hmade : ∀ b ∈ r.createAll fixup targets, r.create? fixup b.target = some b := by
    intro b hb
    obtain ⟨target, -, hcreate⟩ := List.mem_filterMap.1 hb
    obtain ⟨factory, hfactory, rfl⟩ := Option.map_eq_some_iff.1 hcreate
    obtain ⟨before, after, hsplit, -⟩ := List.lookup_eq_some_iff.1 hfactory
    have hentry : (factory fixup).target = target := h (target, factory) (by simp [hsplit])
    rw [hentry]
    exact hcreate
  intro a ha b hb htarget index x y hx hy
  obtain rfl : a = b := Option.some.inj ((hmade a ha).symm.trans (htarget ▸ hmade b hb))
  exact Except.ok.inj (hx.unique hy)

theorem faithful_standard (fixup : Option Fixup) :
    ∀ entry ∈ Registry.standard.entries, (entry.2 fixup).target = entry.1 := by
  have hentries : Registry.standard.entries =
      Target.all.map fun target => (target, fun fixup => (target.language fixup).backend) := rfl
  rw [hentries]
  refine List.forall_mem_map.2 fun target _ => ?_
  exact Target.target_backend_language target fixup

/-- What becomes of the outputs of a run, in any order of arrival. -/
structure Arrivals (p : Program) (backends : List Backend) (sets : List EntrySet)
    (report : Result) : Prop where
  /-- No place is lost, no output stands at the place of another target or set, and what is
  found at a place is what arrived for it last. -/
  keeps : ∀ arrivals, p.Arrives backends sets arrivals →
    ∃ result found, p.arrived backends sets arrivals = .ok result ∧
      p.Keeps backends sets result found ∧
      ∀ place, found place =
        (arrivals.reverse.find? fun entry => Collected.placeOf entry = place).map Prod.snd
  /-- Every job finds its own output at its place when backends of one target write the
  same. -/
  own : p.Consistent backends sets → ∃ found, p.Keeps backends sets report found ∧
    ∀ index, ∀ b ∈ backends, ∀ o, p.Job sets index b (.ok o) →
      found ⟨b.target, index⟩ = some o
  /-- Only then the order of arrival makes no difference. -/
  unordered : (∀ arrivals, p.Arrives backends sets arrivals →
    p.arrived backends sets arrivals = .ok report) ↔ p.Consistent backends sets

/-- The outputs that a request collects, in any order of arrival. -/
theorem arrivals_of_generate (p : Program) (r : Registry) (request : Request)
    (targets : Option (List Target)) (fixup : Option Fixup) :
    ∃ report, p.generate r request ⟨targets, some .reportAll, fixup⟩ = .ok report ∧
      p.Arrivals (r.createAll fixup (targets.getD r.targets)) (request.entrySets p) report ∧
      ((∀ entry ∈ r.entries, (entry.2 fixup).target = entry.1) →
        p.Consistent (r.createAll fixup (targets.getD r.targets)) (request.entrySets p)) := by
  refine ⟨_, p.run_reportAll _ _, ⟨fun arrivals h => ?_, fun h => ?_, arrived_eq_report_iff⟩,
    consistent_of_faithful⟩
  · exact ⟨_, _, p.arrived_eq _ _ arrivals, keeps_reportOn h, Collected.lookup_ofList arrivals⟩
  · exact ⟨_, keeps_reportOn (.refl _), fun index b hb o hjob =>
      (lookup_eq_some_iff_job h).2 ⟨b, hb, rfl, hjob⟩⟩

/-- A target that is asked for twice makes no difference to the order of arrival. -/
theorem arrivals_sample :
    ∃ report, sample.generate .standard (.listed [sampleSet])
        ⟨some [.hlsl, .hlsl, .metal], some .reportAll, none⟩ = .ok report ∧
      ∀ arrivals,
        sample.Arrives (Registry.standard.createAll none [.hlsl, .hlsl, .metal]) [sampleSet]
          arrivals →
        sample.arrived (Registry.standard.createAll none [.hlsl, .hlsl, .metal]) [sampleSet]
          arrivals = .ok report := by
  obtain ⟨report, hreport, harrivals, hconsistent⟩ := arrivals_of_generate sample .standard
    (.listed [sampleSet]) (some [.hlsl, .hlsl, .metal]) none
  exact ⟨report, hreport, harrivals.unordered.2 (hconsistent (faithful_standard none))⟩

/-! ## Outputs with one place -/

/-- A fragment stage with a helper that converts a number. -/
def converted : Program where
  structs := []
  resources := []
  functions := [{
      name := "Demo.FS"
      metadata := ⟨some .fragment, none⟩
      params := []
      result := .vector .float 4
      body := [.ret (some (.construct [weight, weight, weight, weight]
        (some (.vector .float 4))))] },
    { name := "Demo.Weight"
      metadata := .helper
      params := [⟨"i", .scalar .int, .input, none⟩]
      result := .scalar .float
      body := [.ret (some (.cast (.var "i" (some (.scalar .int))) (some (.scalar .float))))] }]
  shaderSets := []
where
  weight : Surface.Expr :=
    .call (.function "Demo.Weight") [.literal (.int 1) none] (some (.scalar .float))

/-- The set of the fragment stage. -/
def convertedSet : EntrySet := ⟨none, some "Demo.FS", none⟩

/-- HLSL, and under another name a backend of HLSL that spells conversions its own way. -/
def hlslTwice : Registry :=
  .ofList [(.hlsl, fun _ => Hlsl.language.backend), (.metal, fun _ => Hlsl.graphicsOnly.backend)]

/-- Two jobs with one place leave one output.  When they write different outputs, the one
that arrives last is left. -/
theorem converted_outputs_replaced :
    (∃ report, converted.generate .standard (.listed [convertedSet])
        ⟨some [.hlsl, .hlsl], some .reportAll, none⟩ = .ok report ∧
      (converted.outputs (Registry.standard.createAll none [.hlsl, .hlsl])
        [convertedSet]).length = 2 ∧
      (report.outputsFor .hlsl).length = 1) ∧
    ∃ first second, converted.outputs (hlslTwice.createAll none hlslTwice.targets)
        [convertedSet] = [first, second] ∧
      converted.arrived (hlslTwice.createAll none hlslTwice.targets) [convertedSet]
          [first, second] ≠
        converted.arrived (hlslTwice.createAll none hlslTwice.targets) [convertedSet]
          [second, first] := by
  refine ⟨⟨_, rfl, rfl, rfl⟩, _, _, rfl, fun h => ?_⟩
  have hresult := Except.ok.inj ((converted.arrived_eq ..).symm.trans
    (h.trans (converted.arrived_eq ..)))
  have hsources := congrArg (fun r => (r.outputsFor .hlsl).map (·.source? .fragment)) hresult
  exact absurd hsources (by decide +kernel)

end Program

end Shading
