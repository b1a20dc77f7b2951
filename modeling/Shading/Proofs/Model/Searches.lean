import Shading.Proofs.Elaboration.Typing
import Shading.Proofs.Graph.Worklist
import Shading.Proofs.Model.Recursion

/-!
# Searches

The three searches of a build end with the closure of what they start from, whatever the
functions call and the structs contain (`searchesEnd`).

1. What an entry point reaches in a call graph is found by `Graph.reachTurn`.
2. The structs that seeds lead to are found by `closeTurn`.  Its table of structs is kept
   from one stage to the next, so a name may stand in it before it is reached.  It runs
   beside a sweep that looks names up in the table it began with (`Beside.turn`), because
   what a search puts into its table is what the name expands to (`Lowered`).
3. The functions that entry points call are found by `lowerTurn`, a sweep that makes
   declared functions pending only.  The functions called are all declared
   (`isSome_function?_of_callees`).

That an order is found is another matter: a cycle is searched to its end, and refused
afterwards.
-/

namespace Shading

namespace Program

variable {p : Program}

/-! ## Functions -/

/-- A turn of the search for the functions that entry points call. -/
def lowerTurn (p : Program) : Sweep Function → Except Error (Expanded Function) ⊕ Sweep Function :=
  sweep p.expandFunction fun _ callee => (p.function? callee).isSome

/-- What an elaborated function calls is declared. -/
theorem isSome_function?_of_callees {name callee : String} {f : Function}
    (hf : p.HasFunction name f) (hc : callee ∈ f.callees) : (p.function? callee).isSome = true := by
  obtain ⟨args, ty, hocc⟩ := hf.mem_callees_iff.1 hc
  obtain ⟨d, -, hd⟩ := hf
  cases (typed_expr_of_elaborateFunction hd hocc).1 with
  | call hdecl => simp [hdecl]

theorem bounded_expandFunction (p : Program) :
    Bounded p.expandFunction (fun _ callee => (p.function? callee).isSome)
      (p.functions.map (·.name)) where
  mem _ _ _ := mem_names_of_expandFunction
  kept := by
    intro name f next he callee hc found
    obtain ⟨hf, rfl⟩ := expandFunction_eq_ok.1 he
    exact .inl (isSome_function?_of_callees hf hc)

/-- The search for functions ends with what `reachedFunctions` answers. -/
theorem ends_lowerTurn (p : Program) (entries : List String) :
    Ends p.lowerTurn ⟨entries.reverse, []⟩ (p.reachedFunctions entries) :=
  ends_sweep p.bounded_expandFunction (by simp) entries

/-! ## Structs -/

/-- The pending names, the top first, the names reached so far, and the structs that this
search and those before it elaborated. -/
structure Closing where
  pending : List String
  reached : List String
  lowered : StructTable

/-- A struct and a table that has it.  It is elaborated when the table does not have it
yet. -/
def lowerStruct (p : Program) (lowered : StructTable) (name : String) :
    Except Error (StructDef × StructTable) :=
  match lowered.get? name with
  | some d => .ok (d, lowered)
  | none => do
    let (d, _) ← p.expandStruct name
    return (d, lowered ++ [(name, d)])

/-- A turn of the search for the structs that seeds lead to. -/
def closeTurn (p : Program) : Closing → Except Error (List String × StructTable) ⊕ Closing
  | ⟨[], reached, lowered⟩ => .inl (.ok (reached, lowered))
  | ⟨name :: rest, reached, lowered⟩ =>
    if name ∈ reached then .inr ⟨rest, reached, lowered⟩
    else
      match p.lowerStruct lowered name with
      | .error e => .inl (.error e)
      | .ok (d, lowered) =>
        let reached := reached ++ [name]
        .inr ⟨(d.dependencies.filter (· ∉ reached)).reverse ++ rest, reached, lowered⟩

/-- What a name expands to, when a table may have it from before. -/
def expandKnown (p : Program) (known : StructTable) (name : String) :
    Except Error (StructDef × List String) :=
  match known.get? name with
  | some d => .ok (d, d.dependencies)
  | none => p.expandStruct name

/-- A table during a search that began with the table `known`, when `found` was found. -/
structure Lowered (p : Program) (known found lowered : StructTable) : Prop where
  /-- The table holds what names expand to. -/
  expands : ∀ name d, lowered.get? name = some d →
    p.expandKnown known name = .ok (d, d.dependencies)
  /-- What stood in the table stays there. -/
  kept : ∀ name d, known.get? name = some d → lowered.get? name = some d
  /-- What was found stands in the table. -/
  has : ∀ entry ∈ found, lowered.get? entry.1 = some entry.2

namespace Lowered

variable {known found lowered : StructTable}

theorem start (p : Program) (known : StructTable) : p.Lowered known [] known where
  expands := by
    intro name d hd
    simp [expandKnown, hd]
  kept _ _ := id
  has := by simp

theorem get?_append {lowered : StructTable} {name other : String} {d : StructDef}
    (h : lowered.get? name = none) :
    StructTable.get? (lowered ++ [(name, d)]) other =
      if other = name then some d else lowered.get? other := by
  simp only [StructTable.get?, List.lookup_append, List.lookup_cons, List.lookup_nil] at h ⊢
  by_cases heq : other = name
  · simp [heq, h]
  · simp [heq, beq_eq_false_iff_ne.2 heq]

/-- The table has the struct that is looked for, and the struct is found. -/
theorem find (h : p.Lowered known found lowered) {name : String} {d : StructDef}
    (hd : lowered.get? name = some d) : p.Lowered known (found ++ [(name, d)]) lowered where
  expands := h.expands
  kept := h.kept
  has := by
    intro entry hentry
    rcases List.mem_append.1 hentry with hf | hl
    · exact h.has entry hf
    · obtain rfl := List.mem_singleton.1 hl
      exact hd

/-- A struct that the table does not have is put there, and it is found. -/
theorem add (h : p.Lowered known found lowered) {name : String} {d : StructDef}
    (hn : lowered.get? name = none)
    (he : p.expandKnown known name = .ok (d, d.dependencies)) :
    p.Lowered known (found ++ [(name, d)]) (lowered ++ [(name, d)]) := by
  have hother : ∀ other e, lowered.get? other = some e →
      StructTable.get? (lowered ++ [(name, d)]) other = some e := by
    intro other e hother
    have hne : other ≠ name := by
      rintro rfl
      simp [hn] at hother
    rw [get?_append hn, if_neg hne, hother]
  refine ⟨?_, fun other e hk => hother other e (h.kept other e hk), ?_⟩
  · intro other e hlookup
    rw [get?_append hn] at hlookup
    split at hlookup
    · next heq =>
      cases hlookup
      exact heq ▸ he
    · exact h.expands other e hlookup
  · intro entry hentry
    rcases List.mem_append.1 hentry with hf | hl
    · exact hother _ _ (h.has entry hf)
    · obtain rfl := List.mem_singleton.1 hl
      rw [get?_append hn, if_pos rfl]

/-- Elaborating a struct fails as expanding its name does. -/
theorem lowerStruct_of_error (h : p.Lowered known found lowered) {name : String} {e : Error}
    (he : p.expandKnown known name = .error e) : p.lowerStruct lowered name = .error e := by
  have hl : lowered.get? name = none := by
    cases hl : lowered.get? name with
    | none => rfl
    | some d => cases (h.expands name d hl).symm.trans he
  have hk : known.get? name = none := by
    cases hk : known.get? name with
    | none => rfl
    | some d => simp [h.kept name d hk] at hl
  simp only [expandKnown, hk] at he
  simp only [lowerStruct, hl, he]
  rfl

/-- Elaborating a struct gives what its name expands to, and a table that has it. -/
theorem lowerStruct_of_ok (h : p.Lowered known found lowered) {name : String} {d : StructDef}
    {next : List String} (he : p.expandKnown known name = .ok (d, next)) :
    next = d.dependencies ∧ ∃ lowered', p.lowerStruct lowered name = .ok (d, lowered') ∧
      p.Lowered known (found ++ [(name, d)]) lowered' := by
  cases hl : lowered.get? name with
  | some d' =>
    cases (h.expands name d' hl).symm.trans he
    exact ⟨rfl, lowered, by simp [lowerStruct, hl], h.find hl⟩
  | none =>
    have hk : known.get? name = none := by
      cases hk : known.get? name with
      | none => rfl
      | some d => simp [h.kept name d hk] at hl
    have hexpand : p.expandStruct name = .ok (d, next) := by
      simpa only [expandKnown, hk] using he
    obtain ⟨-, rfl⟩ := expandStruct_eq_ok.1 hexpand
    refine ⟨rfl, lowered ++ [(name, d)], ?_, h.add hl he⟩
    simp only [lowerStruct, hl, hexpand]
    rfl

end Lowered

/-- States of a search for structs and of a sweep that looks names up in the first table. -/
structure Beside (p : Program) (known : StructTable) (s : Closing) (t : Sweep StructDef) : Prop where
  pending : s.pending = t.pending
  reached : s.reached = t.found.map Prod.fst
  lowered : p.Lowered known t.found s.lowered

/-- Answers of a search for structs and of a sweep that looks names up in the first table. -/
inductive Alike (p : Program) (known : StructTable) :
    Except Error (List String × StructTable) → Except Error StructTable → Prop where
  | error {e : Error} : Alike p known (.error e) (.error e)
  | ok {found lowered : StructTable} : p.Lowered known found lowered →
      Alike p known (.ok (found.map Prod.fst, lowered)) (.ok found)

/-- The sweep that a search for structs runs beside. -/
def expandTurn (p : Program) (known : StructTable) :
    Sweep StructDef → Except Error StructTable ⊕ Sweep StructDef :=
  sweep (p.expandKnown known) fun found name => !found.has name

/-- The searches stop together, or they go on together. -/
theorem Beside.turn {known : StructTable} {s : Closing} {t : Sweep StructDef}
    (h : p.Beside known s t) :
    Sum.LiftRel (p.Alike known) (p.Beside known) (p.closeTurn s) (p.expandTurn known t) := by
  obtain ⟨pending, reached, lowered⟩ := s
  obtain ⟨pending', found⟩ := t
  obtain rfl : pending = pending' := h.pending
  obtain rfl : reached = found.map Prod.fst := h.reached
  have hlowered : p.Lowered known found lowered := h.lowered
  cases pending with
  | nil => exact .inl (.ok hlowered)
  | cons name rest =>
    by_cases hname : name ∈ found.map Prod.fst
    · rw [closeTurn, if_pos hname, expandTurn, sweep, if_pos (Expanded.has_iff.2 hname)]
      exact .inr ⟨rfl, rfl, hlowered⟩
    · have hhas : ¬ found.has name = true := mt Expanded.has_iff.1 hname
      rw [closeTurn, if_neg hname, expandTurn, sweep, if_neg hhas]
      cases he : p.expandKnown known name with
      | error e =>
        rw [hlowered.lowerStruct_of_error he]
        exact .inl .error
      | ok result =>
        obtain ⟨d, next⟩ := result
        obtain ⟨rfl, lowered', hl, hfound⟩ := hlowered.lowerStruct_of_ok he
        rw [hl]
        refine .inr ⟨?_, by simp, hfound⟩
        simp only [List.append_cancel_right_eq, List.reverse_inj]
        refine List.filter_congr fun n _ => ?_
        rw [Bool.eq_iff_iff, decide_eq_true_iff, Bool.not_eq_true', ← Bool.not_eq_true,
          Expanded.has_iff, List.map_append]
        rfl

/-- The search for structs ends, as only listed names are expanded. -/
theorem exists_ends_closeTurn (p : Program) (known : StructTable) (names : List String)
    (h : ∀ name d next, p.expandKnown known name = .ok (d, next) → name ∈ names)
    (seeds : List String) :
    ∃ answer, Ends p.closeTurn ⟨seeds.reverse, [], known⟩ answer ∧
      p.Alike known answer (explore names.length (p.expandKnown known) seeds) := by
  have hbounded : Bounded (p.expandKnown known) (fun found name => !found.has name) names :=
    ⟨h, fun _ _ _ _ n _ found => by cases found.has n <;> simp⟩
  exact (ends_sweep hbounded (Nat.le_refl _) seeds).of_related (fun _ _ => Beside.turn)
    ⟨rfl, rfl, .start p known⟩

theorem mem_names_of_expandKnown {known : StructTable} {name : String} {d : StructDef}
    {next : List String} (h : p.expandKnown known name = .ok (d, next)) :
    name ∈ known.map Prod.fst ++ p.structs.map (·.name) := by
  rw [expandKnown] at h
  split at h
  · next hk =>
    obtain ⟨before, after, rfl, -⟩ := List.lookup_eq_some_iff.1 hk
    simp
  · exact List.mem_append_right _ (mem_names_of_expandStruct h)

/-- A table that holds what names expand to changes nothing. -/
theorem expandKnown_eq {known : StructTable}
    (h : ∀ name d, known.get? name = some d → p.HasStruct name d) :
    p.expandKnown known = p.expandStruct := by
  funext name
  rw [expandKnown]
  split
  · next d hk => exact (expandStruct_eq_ok.2 ⟨h name d hk, rfl⟩).symm
  · rfl

/-- What a search for structs answers that found all that its seeds lead to. -/
structure ClosesStructs (p : Program) (seeds reached : List String) (lowered : StructTable) :
    Prop where
  /-- A name is found once. -/
  once : reached.Nodup
  /-- The names are the least set with the seeds and with what the fields of its structs
  mention. -/
  closure : ∀ name, name ∈ reached ↔ Closure p.Embeds (· ∈ seeds) name
  /-- Each has its struct in the table. -/
  found : ∀ name ∈ reached, ∃ d, lowered.get? name = some d ∧ p.HasStruct name d
  /-- The table may serve the next search. -/
  table : ∀ name d, lowered.get? name = some d → p.HasStruct name d

section Known

variable {known : StructTable} (hk : ∀ name d, known.get? name = some d → p.HasStruct name d)

include hk

/-- With a table that holds what names expand to the search answers what `reachedStructs`
does. -/
theorem exists_ends_closeTurn_of_known (seeds : List String) :
    ∃ answer, Ends p.closeTurn ⟨seeds.reverse, [], known⟩ answer ∧
      p.Alike known answer (p.reachedStructs seeds) := by
  have h := p.exists_ends_closeTurn known (p.structs.map (·.name))
    (fun _ _ _ he => mem_names_of_expandStruct (expandKnown_eq hk ▸ he)) seeds
  rwa [expandKnown_eq hk, List.length_map] at h

theorem Alike.closesStructs {seeds reached : List String} {lowered : StructTable}
    (h : p.Alike known (.ok (reached, lowered)) (p.reachedStructs seeds)) :
    p.ClosesStructs seeds reached lowered := by
  generalize hs : p.reachedStructs seeds = answer at h
  cases h with
  | @ok found _ hl =>
    have hhas := hasStruct_of_reachedStructs hs
    refine ⟨(explored_of_reachedStructs hs).once, fun _ => mem_reachedStructs_iff hs, ?_, ?_⟩
    · intro name hname
      obtain ⟨entry, hentry, rfl⟩ := List.mem_map.1 hname
      exact ⟨entry.2, hl.has entry hentry, hhas entry hentry⟩
    · intro name d hd
      have he := hl.expands name d hd
      rw [expandKnown_eq hk] at he
      exact (expandStruct_eq_ok.1 he).1

end Known

theorem Alike.map_fst {known : StructTable} {answer : Except Error (List String × StructTable)}
    {answer' : Except Error StructTable} (h : p.Alike known answer answer') :
    answer.map Prod.fst = answer'.map (·.map Prod.fst) := by
  cases h <;> rfl

/-! ## The end of the searches -/

/-- The searches of a build end, each with one answer, which is what its start leads to.
The first is about all graphs.  The second is about all tables as far as its end goes, and
it has its answer from tables that hold what names stand for. -/
theorem searchesEnd :
    (∀ (g : Graph) (entry : String), ∃ reached,
      (∀ answer, Ends g.reachTurn ⟨[entry], []⟩ answer ↔ answer = reached) ∧
        reached.Nodup ∧ reached.Perm (g.reach entry) ∧
        ∀ name, name ∈ reached ↔ Relation.ReflTransGen g.Depends entry name) ∧
    (∀ (p : Program) (seeds : List String) (known : StructTable), ∃ result,
      (∀ answer, Ends p.closeTurn ⟨seeds.reverse, [], known⟩ answer ↔ answer = result) ∧
        ((∀ name d, known.get? name = some d → p.HasStruct name d) →
          result.map Prod.fst = (p.reachedStructs seeds).map (·.map Prod.fst) ∧
            ∀ reached lowered, result = .ok (reached, lowered) →
              p.ClosesStructs seeds reached lowered)) ∧
    (∀ (p : Program) (entries : List String),
      (∀ answer, Ends p.lowerTurn ⟨entries.reverse, []⟩ answer ↔
        answer = p.reachedFunctions entries) ∧
        ∀ lowered, p.reachedFunctions entries = .ok lowered → ∀ name,
          name ∈ lowered.map Prod.fst ↔ Closure p.Calls (· ∈ entries) name) := by
  refine ⟨fun g entry => ?_, fun p seeds known => ?_, fun p entries => ⟨?_, ?_⟩⟩
  · obtain ⟨reached, hends, honce, hmem⟩ := Graph.exists_ends_reachTurn g entry
    exact ⟨reached, fun _ => hends.iff_eq, honce, Graph.perm_reach honce hmem, hmem⟩
  · obtain ⟨result, hends, -⟩ := p.exists_ends_closeTurn known _
      (fun _ _ _ => mem_names_of_expandKnown) seeds
    refine ⟨result, fun _ => hends.iff_eq, fun hknown => ?_⟩
    obtain ⟨answer, hanswer, halike⟩ := exists_ends_closeTurn_of_known hknown seeds
    obtain rfl := hanswer.unique hends
    exact ⟨halike.map_fst, fun reached lowered hok => (hok ▸ halike).closesStructs hknown⟩
  · exact fun _ => (ends_lowerTurn p entries).iff_eq
  · exact fun lowered hok name => mem_reached_iff (explored_of_reachedFunctions hok)

/-- The structs of `circular`. -/
def circularNode : StructDef := ⟨"Demo.Node", [⟨"Left", .struct "Demo.Edge", none⟩]⟩

@[inherit_doc circularNode]
def circularEdge : StructDef := ⟨"Demo.Edge", [⟨"Ends", .array (.struct "Demo.Node") 2, none⟩]⟩

/-- Functions that call each other are found once each, and so are structs that contain each
other, when the table of structs has one of them from before. -/
theorem searchesEnd_circular :
    (Ends circular.closeTurn ⟨["Demo.Node"], [], [("Demo.Edge", circularEdge)]⟩
        (.ok (["Demo.Node", "Demo.Edge"],
          [("Demo.Edge", circularEdge), ("Demo.Node", circularNode)])) ∧
      circular.ClosesStructs ["Demo.Node"] ["Demo.Node", "Demo.Edge"]
        [("Demo.Edge", circularEdge), ("Demo.Node", circularNode)]) ∧
    ∃ lowered, circular.reachedFunctions ["Demo.Even"] = .ok lowered ∧
      lowered.map Prod.fst = ["Demo.Even", "Demo.Odd"] ∧
      ∀ name, name ∈ lowered.map Prod.fst ↔ Closure circular.Calls (· ∈ ["Demo.Even"]) name := by
  have hfunctions : circular.reachedFunctions ["Demo.Even"] = .ok _ := rfl
  have hends : Ends circular.closeTurn ⟨["Demo.Node"], [], [("Demo.Edge", circularEdge)]⟩ _ :=
    .next rfl (.next rfl (.stop rfl))
  have hknown : ∀ name d, StructTable.get? [("Demo.Edge", circularEdge)] name = some d →
      circular.HasStruct name d := by
    intro name d hd
    obtain ⟨before, after, hentry, -⟩ := List.lookup_eq_some_iff.1 hd
    have hmem : (name, d) ∈ [("Demo.Edge", circularEdge)] := by simp [hentry]
    cases List.mem_singleton.1 hmem
    have hedge : circular.expandStruct "Demo.Edge" = .ok (circularEdge, ["Demo.Node"]) := rfl
    exact (expandStruct_eq_ok.1 hedge).1
  obtain ⟨result, hone, hclosed⟩ :=
    searchesEnd.2.1 circular ["Demo.Node"] [("Demo.Edge", circularEdge)]
  obtain rfl := (hone _).1 hends
  exact ⟨⟨hends, (hclosed hknown).2 _ _ rfl⟩,
    _, hfunctions, rfl, (searchesEnd.2.2 circular ["Demo.Even"]).2 _ hfunctions⟩

end Program

end Shading
