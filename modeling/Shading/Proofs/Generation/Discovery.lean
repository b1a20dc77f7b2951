import Mathlib.Data.List.Nodup
import Shading.Proofs.Generation.Policies
import Shading.Proofs.Model.Building

/-!
# What discovery finds

A function that is marked for a stage is found when a set has its name as the entry point
of that stage.  Discovery goes by names: a vertex or fragment entry that a declared set
names gets no set of its own, whichever stage the declared set names it for.  So an entry
is missed when declared sets name it for the other stage only
(`misplaced_entry_missed`).

Every other entry is found (`discovers_discover`), the order of the sets is that of the
declarations, and what is found on its own is found once.  Where functions have different
names, an entry is never missed in silence: the declared set that misplaces it cannot be
built, so a run over what is found reports a failure.
-/

namespace Shading

/-! ## Entry points of sets -/

namespace EntrySet

theorem entryName?_single_eq_some_iff {own stage : Stage} {name entry : String} :
    (single own name).entryName? stage = some entry ↔ own = stage ∧ name = entry := by
  cases own <;> cases stage <;> simp [single, entryName?]

theorem mem_entryNames {sets : List EntrySet} {name : String} :
    name ∈ Program.entryNames sets ↔ ∃ set ∈ sets, ∃ stage, set.entryName? stage = some name := by
  simp only [Program.entryNames, List.mem_flatMap, List.mem_map, Prod.exists, exists_eq_right,
    mem_entries]

end EntrySet

/-- A declared set names an entry point. -/
def SetDecl.hasEntry (s : SetDecl) : Bool := s.vertex.isSome || s.fragment.isSome

theorem SetDecl.isEmpty_entrySet (s : SetDecl) : s.entrySet.isEmpty = !s.hasEntry := by
  obtain ⟨_, vertex, fragment⟩ := s
  cases vertex <;> cases fragment <;> rfl

theorem SetDecl.hasEntry_of_entryName? {s : SetDecl} {stage : Stage} {name : String}
    (h : s.entrySet.entryName? stage = some name) : s.hasEntry = true := by
  obtain ⟨_, vertex, fragment⟩ := s
  cases stage with
  | vertex => simp_all [entrySet, EntrySet.entryName?, hasEntry]
  | fragment => simp_all [entrySet, EntrySet.entryName?, hasEntry]
  | compute => cases h

/-- The set of a marked function alone. -/
def FunctionDecl.ownSet? (d : FunctionDecl) : Option EntrySet :=
  d.metadata.stage.map fun stage => .single stage d.name

theorem FunctionDecl.ownSet?_of_marked {d : FunctionDecl} {stage : Stage}
    (h : d.metadata.stage = some stage) : d.ownSet? = some (.single stage d.name) := by
  rw [ownSet?, h, Option.map_some]

theorem FunctionDecl.ownSet?_eq_some_iff {d : FunctionDecl} {set : EntrySet} :
    d.ownSet? = some set ↔ ∃ stage, d.metadata.stage = some stage ∧ .single stage d.name = set := by
  rw [ownSet?, Option.map_eq_some_iff]

namespace Program

variable {p : Program}

/-! ## What declared sets name -/

/-- A declared set names a function as the entry point of a stage. -/
def NamesFor (p : Program) (stage : Stage) (name : String) : Prop :=
  ∃ s ∈ p.shaderSets, s.entrySet.entryName? stage = some name

/-- Declared sets name a function as an entry point, but not of this stage. -/
def Misplaces (p : Program) (stage : Stage) (name : String) : Prop :=
  (∃ other, p.NamesFor other name) ∧ ¬ p.NamesFor stage name

theorem declaredSets_eq :
    p.declaredSets = (p.shaderSets.filter SetDecl.hasEntry).map SetDecl.entrySet := by
  rw [declaredSets, List.filter_map]
  refine congrArg (List.map _) (List.filter_congr fun s _ => ?_)
  simp only [Function.comp_apply, SetDecl.isEmpty_entrySet, Bool.not_not]

theorem exists_declaredSets_iff {stage : Stage} {name : String} :
    (∃ set ∈ p.declaredSets, set.entryName? stage = some name) ↔ p.NamesFor stage name := by
  rw [declaredSets_eq]
  constructor
  · rintro ⟨set, hset, hname⟩
    obtain ⟨s, hs, rfl⟩ := List.mem_map.1 hset
    exact ⟨s, (List.mem_filter.1 hs).1, hname⟩
  · rintro ⟨s, hs, hname⟩
    exact ⟨_, List.mem_map_of_mem (List.mem_filter.2 ⟨hs, SetDecl.hasEntry_of_entryName? hname⟩),
      hname⟩

theorem mem_entryNames_declaredSets {name : String} :
    name ∈ entryNames p.declaredSets ↔ ∃ stage, p.NamesFor stage name := by
  simp only [EntrySet.mem_entryNames, ← exists_declaredSets_iff]
  constructor
  · rintro ⟨set, hset, stage, hname⟩
    exact ⟨stage, set, hset, hname⟩
  · rintro ⟨stage, set, hset, hname⟩
    exact ⟨set, hset, stage, hname⟩

/-! ## What is found on its own -/

/-- The vertex and fragment entries that no declared set names. -/
def lonely (p : Program) : List FunctionDecl :=
  p.functions.filter fun d =>
    (d.metadata.stage = some .vertex ∨ d.metadata.stage = some .fragment) ∧
      ∀ s ∈ p.shaderSets, s.vertex ≠ some d.name ∧ s.fragment ≠ some d.name

theorem not_namesFor_iff {name : String} : (∀ stage, ¬ p.NamesFor stage name) ↔
    ∀ s ∈ p.shaderSets, s.vertex ≠ some name ∧ s.fragment ≠ some name := by
  constructor
  · exact fun h s hs => ⟨fun hv => h .vertex ⟨s, hs, hv⟩, fun hf => h .fragment ⟨s, hs, hf⟩⟩
  · rintro h stage ⟨s, hs, hname⟩
    cases stage with
    | vertex => exact (h s hs).1 hname
    | fragment => exact (h s hs).2 hname
    | compute => cases hname

theorem mem_lonely {d : FunctionDecl} : d ∈ p.lonely ↔ d ∈ p.functions ∧
    (d.metadata.stage = some .vertex ∨ d.metadata.stage = some .fragment) ∧
      ∀ stage, ¬ p.NamesFor stage d.name := by
  rw [lonely, List.mem_filter, decide_eq_true_iff, not_namesFor_iff]

theorem mem_entryPoints {d : FunctionDecl} {stage : Stage} :
    d ∈ p.entryPoints stage ↔ d ∈ p.functions ∧ d.metadata.stage = some stage := by
  rw [entryPoints, List.mem_filter, decide_eq_true_iff]

theorem singleSets_eq :
    p.singleSets (entryNames p.declaredSets) = p.lonely.filterMap FunctionDecl.ownSet? := by
  rw [singleSets, lonely, List.filterMap_filter]
  refine List.filterMap_congr fun d _ => ?_
  by_cases hdeclared : ∃ stage, p.NamesFor stage d.name
  · rw [if_pos (mem_entryNames_declaredSets.2 hdeclared), if_neg]
    rw [decide_eq_true_iff, ← not_namesFor_iff]
    exact fun h => not_exists.2 h.2 hdeclared
  · rw [if_neg (mt mem_entryNames_declaredSets.1 hdeclared), FunctionDecl.ownSet?]
    simp only [decide_eq_true_iff, and_iff_left (not_namesFor_iff.1 (not_exists.1 hdeclared))]
    rcases d.metadata.stage with _ | (_ | _ | _) <;> simp [isGraphics]

theorem computeSets_eq :
    p.computeSets = (p.entryPoints .compute).filterMap FunctionDecl.ownSet? := by
  rw [computeSets, ← List.filterMap_eq_map]
  refine List.filterMap_congr fun d hd => ?_
  rw [FunctionDecl.ownSet?_of_marked (mem_entryPoints.1 hd).2]
  rfl

theorem discover_eq : p.discover =
    (p.shaderSets.filter SetDecl.hasEntry).map SetDecl.entrySet ++
      p.lonely.filterMap FunctionDecl.ownSet? ++
      (p.entryPoints .compute).filterMap FunctionDecl.ownSet? := by
  rw [discover, singleSets_eq, computeSets_eq, declaredSets_eq]

/-- The entry points of the sets of functions alone. -/
theorem exists_ownSets_iff {functions : List FunctionDecl} {stage : Stage} {name : String} :
    (∃ set ∈ functions.filterMap FunctionDecl.ownSet?, set.entryName? stage = some name) ↔
      ∃ d ∈ functions, d.metadata.stage = some stage ∧ d.name = name := by
  constructor
  · rintro ⟨set, hset, hname⟩
    obtain ⟨d, hd, hown⟩ := List.mem_filterMap.1 hset
    obtain ⟨own, hmark, rfl⟩ := FunctionDecl.ownSet?_eq_some_iff.1 hown
    obtain ⟨rfl, rfl⟩ := EntrySet.entryName?_single_eq_some_iff.1 hname
    exact ⟨d, hd, hmark, rfl⟩
  · rintro ⟨d, hd, hmark, rfl⟩
    exact ⟨_, List.mem_filterMap.2 ⟨d, hd, FunctionDecl.ownSet?_of_marked hmark⟩,
      EntrySet.entryName?_single stage d.name⟩

/-- What the sets that are found name: what declared sets name, and marked functions.  Vertex
and fragment entries are among these when no declared set names them at all. -/
theorem exists_discover_iff {stage : Stage} {name : String} :
    (∃ set ∈ p.discover, set.entryName? stage = some name) ↔
      p.NamesFor stage name ∨
        (∃ d ∈ p.functions, d.metadata.stage = some stage ∧ d.name = name) ∧
          (stage = .compute ∨ ∀ other, ¬ p.NamesFor other name) := by
  rw [discover, singleSets_eq, computeSets_eq]
  simp only [List.mem_append, or_and_right, exists_or, exists_declaredSets_iff, exists_ownSets_iff,
    or_assoc]
  refine or_congr_right ?_
  constructor
  · rintro (⟨d, hd, hmark, rfl⟩ | ⟨d, hd, hmark, rfl⟩)
    · obtain ⟨hd, -, hnone⟩ := mem_lonely.1 hd
      exact ⟨⟨d, hd, hmark, rfl⟩, .inr hnone⟩
    · obtain ⟨hd, hcompute⟩ := mem_entryPoints.1 hd
      exact ⟨⟨d, hd, hmark, rfl⟩, .inl (Option.some.inj (hmark.symm.trans hcompute))⟩
  · rintro ⟨⟨d, hd, hmark, rfl⟩, h⟩
    cases hstage : stage with
    | compute =>
      rw [hstage] at hmark
      exact .inr ⟨d, mem_entryPoints.2 ⟨hd, hmark⟩, hmark, rfl⟩
    | vertex =>
      rw [hstage] at hmark h
      exact .inl ⟨d, mem_lonely.2 ⟨hd, .inl hmark, h.resolve_left nofun⟩, hmark, rfl⟩
    | fragment =>
      rw [hstage] at hmark h
      exact .inl ⟨d, mem_lonely.2 ⟨hd, .inr hmark, h.resolve_left nofun⟩, hmark, rfl⟩

/-! ## Functions with different names -/

theorem function?_of_mem (h : (p.functions.map (·.name)).Nodup) {d : FunctionDecl}
    (hd : d ∈ p.functions) : p.function? d.name = some d := by
  obtain ⟨found, hmem, hfound, hname⟩ :=
    @exists_find?_of_mem_map _ (·.name) _ _ (List.mem_map_of_mem hd)
  rw [function?, hfound, List.inj_on_of_nodup_map h hmem hd hname]

/-- Functions with different names have different sets of their own. -/
theorem nodup_ownSets {functions : List FunctionDecl} (h : (functions.map (·.name)).Nodup) :
    (functions.filterMap FunctionDecl.ownSet?).Nodup := by
  refine List.Pairwise.filterMap _ ?_ (List.pairwise_map.1 h)
  rintro d other hne set hset _ hother rfl
  obtain ⟨stage, -, rfl⟩ := FunctionDecl.ownSet?_eq_some_iff.1 hset
  obtain ⟨_, -, hsame⟩ := FunctionDecl.ownSet?_eq_some_iff.1 hother
  have hentry : (EntrySet.single stage d.name).entryName? stage = some d.name :=
    EntrySet.entryName?_single stage d.name
  rw [← hsame] at hentry
  exact hne (EntrySet.entryName?_single_eq_some_iff.1 hentry).2.symm

/-- A set cannot be built when it names something that is no entry point of the stage. -/
theorem exists_error_of_not_root {set : EntrySet} {stage : Stage} {name : String}
    (hname : set.entryName? stage = some name) (h : ¬ p.IsRoot stage name) :
    ∃ error, p.build set = .error error := by
  cases hbuild : p.build set with
  | error error => exact ⟨error, rfl⟩
  | ok m =>
    obtain ⟨_, _, hbuilt⟩ := builtFrom_of_build hbuild
    exact absurd (hbuilt.roots stage name (EntrySet.mem_entries.2 hname)) h

/-- A run reports every set that cannot be built, or ends without a report. -/
theorem exists_failure_of_run {backends : List Backend} {policy : FailurePolicy}
    {sets : List EntrySet} {result : Result} (h : p.run backends policy sets = .ok result)
    {set : EntrySet} (hset : set ∈ sets) {error : Error} (hbuild : p.build set = .error error) :
    ∃ f ∈ result.failures, f.set = set ∧ f.phase = .building := by
  obtain ⟨_, -, hreport⟩ := bind_eq_ok.1 ((p.run_eq backends policy sets).symm.trans h)
  obtain rfl := Except.ok.inj hreport
  obtain ⟨index, hindex⟩ := List.getElem?_of_mem hset
  obtain ⟨e, he⟩ : ∃ e, p.buildAt index set = .error e := by
    rw [buildAt]
    split
    · exact ⟨_, rfl⟩
    · exact ⟨error, hbuild⟩
  have hmem : ⟨index, set, .building, e⟩ ∈ p.failures backends sets := by
    refine mem_failures_iff.2 ⟨hindex, ?_⟩
    rw [failuresAt_of_error he]
    exact .head _
  exact ⟨_, (perm_failures_report p backends sets).mem_iff.2 hmem, rfl, rfl⟩

/-! ## Discovery -/

/-- What discovery finds in a program. -/
structure Discovers (p : Program) (sets : List EntrySet) : Prop where
  /-- First come the declared sets that name an entry point, then the vertex and fragment
  entries that no declared set names, and then the compute entries, all in declaration
  order. -/
  ordered : sets =
    (p.shaderSets.filter SetDecl.hasEntry).map SetDecl.entrySet ++
      p.lonely.filterMap FunctionDecl.ownSet? ++
      (p.entryPoints .compute).filterMap FunctionDecl.ownSet?
  /-- A marked function is the entry point of a set, for its stage, unless declared sets
  misplace it.  They misplace no compute entry. -/
  found : ∀ d ∈ p.functions, ∀ stage, d.metadata.stage = some stage →
    ((∃ set ∈ sets, set.entryName? stage = some d.name) ↔
      stage = .compute ∨ ¬ p.Misplaces stage d.name)
  /-- Where functions have different names and one is missed, every run over the sets that
  answers with a report names a set that could not be built, and that set names the function. -/
  reported : (p.functions.map (·.name)).Nodup → ∀ d ∈ p.functions, ∀ stage,
    d.metadata.stage = some stage → (∀ set ∈ sets, set.entryName? stage ≠ some d.name) →
      ∀ backends policy report, p.run backends policy sets = .ok report →
        ∃ f ∈ report.failures, f.phase = .building ∧
          ∃ other, f.set.entryName? other = some d.name
  /-- Where functions have different names, a vertex or fragment entry that is found on its
  own is found once, and no declared set names it. -/
  once : (p.functions.map (·.name)).Nodup →
    ∀ set ∈ p.lonely.filterMap FunctionDecl.ownSet?, sets.count set = 1 ∧
      ∀ stage name, set.entryName? stage = some name → ∀ other, ¬ p.NamesFor other name

theorem found_iff {d : FunctionDecl} (hd : d ∈ p.functions) {stage : Stage}
    (hmark : d.metadata.stage = some stage) :
    (∃ set ∈ p.discover, set.entryName? stage = some d.name) ↔
      stage = .compute ∨ ¬ p.Misplaces stage d.name := by
  have hmarked : ∃ e ∈ p.functions, e.metadata.stage = some stage ∧ e.name = d.name :=
    ⟨d, hd, hmark, rfl⟩
  rw [exists_discover_iff, and_iff_right hmarked, Misplaces, not_and_not_right, ← not_exists]
  tauto

theorem once_of_lonely (hnames : (p.functions.map (·.name)).Nodup) {set : EntrySet}
    (h : set ∈ p.lonely.filterMap FunctionDecl.ownSet?) : p.discover.count set = 1 ∧
      ∀ stage name, set.entryName? stage = some name → ∀ other, ¬ p.NamesFor other name := by
  obtain ⟨d, hd, hown⟩ := List.mem_filterMap.1 h
  obtain ⟨own, hmark, rfl⟩ := FunctionDecl.ownSet?_eq_some_iff.1 hown
  obtain ⟨-, hgraphics, hnone⟩ := mem_lonely.1 hd
  have hdeclared : EntrySet.single own d.name ∉ p.declaredSets := fun hmem =>
    hnone own (exists_declaredSets_iff.1 ⟨_, hmem, EntrySet.entryName?_single own d.name⟩)
  have hcompute : EntrySet.single own d.name ∉ p.computeSets := by
    intro hmem
    obtain ⟨e, -, he⟩ := List.mem_map.1 hmem
    have hentry := EntrySet.entryName?_single .compute e.name
    rw [he] at hentry
    obtain ⟨rfl, -⟩ := EntrySet.entryName?_single_eq_some_iff.1 hentry
    rw [hmark] at hgraphics
    rcases hgraphics with hgraphics | hgraphics <;> cases hgraphics
  have hlonely : (p.lonely.filterMap FunctionDecl.ownSet?).Nodup :=
    nodup_ownSets (((List.filter_sublist).map _).nodup hnames)
  constructor
  · rw [discover, singleSets_eq, List.count_append, List.count_append,
      List.count_eq_zero_of_not_mem hdeclared, List.count_eq_zero_of_not_mem hcompute,
      List.count_eq_one_of_mem hlonely h]
  · intro stage name hname
    obtain ⟨-, rfl⟩ := EntrySet.entryName?_single_eq_some_iff.1 hname
    exact hnone

theorem reported_of_missed (hnames : (p.functions.map (·.name)).Nodup) {d : FunctionDecl}
    (hd : d ∈ p.functions) {stage : Stage} (hmark : d.metadata.stage = some stage)
    (hmissed : ∀ set ∈ p.discover, set.entryName? stage ≠ some d.name) {backends : List Backend}
    {policy : FailurePolicy} {report : Result}
    (hrun : p.run backends policy p.discover = .ok report) :
    ∃ f ∈ report.failures, f.phase = .building ∧ ∃ other, f.set.entryName? other = some d.name := by
  have hnotfound : ¬ ∃ set ∈ p.discover, set.entryName? stage = some d.name :=
    fun ⟨set, hset, hname⟩ => hmissed set hset hname
  rw [found_iff hd hmark, not_or, not_not] at hnotfound
  obtain ⟨-, ⟨other, hdeclared⟩, hnot⟩ := hnotfound
  obtain ⟨set, hset, hname⟩ := exists_discover_iff.2 (.inl hdeclared)
  have hroot : ¬ p.IsRoot other d.name := by
    rintro ⟨found, hfound, hother⟩
    -- The function is marked for its own stage only.
    obtain rfl := Option.some.inj ((function?_of_mem hnames hd).symm.trans hfound)
    obtain rfl := Option.some.inj (hmark.symm.trans hother)
    exact hnot hdeclared
  obtain ⟨error, hbuild⟩ := exists_error_of_not_root hname hroot
  obtain ⟨f, hf, rfl, hphase⟩ := exists_failure_of_run hrun hset hbuild
  exact ⟨f, hf, hphase, other, hname⟩

/-- What discovery finds in every program. -/
theorem discovers_discover (p : Program) : p.Discovers p.discover where
  ordered := discover_eq
  found _ hd _ hmark := found_iff hd hmark
  reported hnames _ hd _ hmark hmissed _ _ _ hrun := reported_of_missed hnames hd hmark hmissed hrun
  once hnames _ hset := once_of_lonely hnames hset

/-- A vertex entry that a declared set names as its fragment entry. -/
def swapped : Program where
  structs := []
  resources := []
  functions := [{
    name := "Demo.VS"
    metadata := ⟨some .vertex, none⟩
    params := []
    result := .vector .float 4
    body := [.ret (some (.construct [.literal (.int 0) none] (some (.vector .float 4))))] }]
  shaderSets := [⟨"Demo", none, some "Demo.VS"⟩]

/-- No set that is found has the vertex entry as its vertex entry. -/
theorem misplaced_entry_missed : ∃ d ∈ swapped.functions, d.metadata.stage = some .vertex ∧
    ∀ set ∈ swapped.discover, set.entryName? .vertex ≠ some d.name :=
  ⟨_, .head _, rfl, by decide⟩

end Program

end Shading
