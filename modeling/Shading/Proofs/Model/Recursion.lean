import Shading.Proofs.Graph.Cycles
import Shading.Proofs.Model.Order

/-!
# Recursion

A program is refused for recursion exactly when a function that is reached calls itself,
directly or through others, or a struct that is reached contains itself.  The error names
a call or a field that closes the cycle.

Both orders come from `Graph.order`.  `orderFunctions` reads its graph off the calls that
are recorded in a table, and `orderStructs` off the structs.  In a table of what was reached
every name of the order has an entry, so nothing is lost when the names are looked up.
-/

namespace Shading

/-- A call of `b` is recorded for the function that stands under `a` in a table. -/
def Expanded.Calls (functions : Expanded Function) (a b : String) : Prop :=
  ∃ f, functions.get? a = some f ∧ b ∈ f.callees

namespace Program

variable {p : Program}

/-! ## Functions -/

/-- The error for a call that closes a cycle. -/
def recursionError (c : Graph.Cycle) : Error := .construct c.dependent (.recursiveCall c.dependency)

theorem orderFunctions_eq (functions : Expanded Function) (entries : List String) :
    orderFunctions functions entries =
      (((callGraph functions).order entries).mapError recursionError).map
        (·.filterMap functions.get?) := by
  rw [orderFunctions]
  cases (callGraph functions).order entries <;> rfl

theorem depends_callGraph {functions : Expanded Function} {a b : String} :
    (callGraph functions).Depends a b ↔ functions.Calls a b := by
  rw [Graph.Depends, Graph.next, callGraph, lookup_map Function.callees functions a]
  simp only [Expanded.Calls, Expanded.get?]
  cases functions.lookup a with
  | none => simp
  | some f => simp

/-- The calls of a table are followed from any entry points. -/
theorem rejectsCycles_callGraph (functions : Expanded Function) (entries : List String) :
    RejectsCycles functions.Calls (· ∈ entries)
      (fun f callee => .construct f (.recursiveCall callee))
      (((callGraph functions).order entries).mapError recursionError) :=
  ((Graph.rejectsCycles_order _ entries).congr
    (fun _ => Closure.congr (fun _ => .rfl) fun _ _ _ => depends_callGraph)
    fun _ _ _ => depends_callGraph).mapError recursionError

/-- Functions that were reached are ordered as their names are. -/
theorem names_orderFunctions {entries : List String} {reached : Expanded Function}
    (h : Explored p.expandFunction (· ∈ entries) [] reached) :
    (orderFunctions reached entries).map (·.map (·.qualifiedName)) =
      ((callGraph reached).order entries).mapError recursionError := by
  cases ho : orderFunctions reached entries with
  | ok functions =>
    rw [names_of_orderFunctions h ho]
    rfl
  | error e =>
    rw [orderFunctions_eq] at ho
    cases hc : (callGraph reached).order entries <;> rw [hc] at ho <;> cases ho
    rfl

/-- What is recorded for the functions that entry points reach are the calls in them. -/
theorem calls_reached_iff {entries : List String} {reached : Expanded Function}
    (h : p.reachedFunctions entries = .ok reached) {a b : String}
    (ha : a ∈ reached.map Prod.fst) : reached.Calls a b ↔ p.Calls a b := by
  rw [← depends_callGraph]
  exact depends_callGraph_iff (explored_of_reachedFunctions h) ha

/-- The functions that entry points reach are ordered, or one of their calls closes a
cycle. -/
theorem rejectsCycles_functions {entries : List String} {reached : Expanded Function}
    (h : p.reachedFunctions entries = .ok reached) :
    RejectsCycles p.Calls (· ∈ entries) (fun f callee => .construct f (.recursiveCall callee))
      ((orderFunctions reached entries).map (·.map (·.qualifiedName))) := by
  have hexplored := explored_of_reachedFunctions h
  have hclosure : ∀ name, Closure reached.Calls (· ∈ entries) name ↔
      Closure p.Calls (· ∈ entries) name := fun name =>
    (Closure.congr (fun _ => .rfl) fun _ _ _ => depends_callGraph.symm).trans
      (closure_callGraph_iff hexplored fun _ => id)
  rw [names_orderFunctions hexplored]
  exact (rejectsCycles_callGraph reached entries).congr hclosure fun a b ha =>
    calls_reached_iff h ((mem_reached_iff hexplored).2 ((hclosure a).1 ha))

/-! ## Structs -/

/-- The error for a field that closes a cycle. -/
def embeddingError (c : Graph.Cycle) : Error :=
  .construct c.dependent (.recursiveStruct c.dependency)

section Structs

variable {table : StructTable} {root : String → Prop}

theorem orderStructs_eq (p : Program) (table : StructTable) :
    p.orderStructs table =
      (((structGraph table).order
        ((p.structs.map (·.name)).filter fun name => (table.get? name).isSome)).mapError
          embeddingError).map (·.filterMap table.get?) := by
  unfold orderStructs
  simp only
  cases (structGraph table).order _ <;> rfl

/-- Structs of a table without loose ends are ordered as their names are. -/
theorem names_orderStructs (h : ∀ entry ∈ table, p.HasStruct entry.1 entry.2)
    (hc : ∀ a ∈ table.map Prod.fst, ∀ b, p.Embeds a b → b ∈ table.map Prod.fst) :
    (p.orderStructs table).map (·.map (·.name)) =
      ((structGraph table).order
        ((p.structs.map (·.name)).filter fun name => (table.get? name).isSome)).mapError
          embeddingError := by
  cases ho : p.orderStructs table with
  | ok structs =>
    rw [order_of_orderStructs h hc ho]
    rfl
  | error e =>
    rw [orderStructs_eq] at ho
    cases hc : (structGraph table).order _ <;> rw [hc] at ho <;> cases ho
    rfl

/-- The structs of a table that holds what some names lead to are ordered, or one of their
fields closes a cycle. -/
theorem rejectsCycles_orderStructs (h : ∀ entry ∈ table, p.HasStruct entry.1 entry.2)
    (hm : ∀ name, name ∈ table.map Prod.fst ↔ Closure p.Embeds root name) :
    RejectsCycles p.Embeds root (fun d field => .construct d (.recursiveStruct field))
      ((p.orderStructs table).map (·.map (·.name))) := by
  have hclosed : ∀ a ∈ table.map Prod.fst, ∀ b, p.Embeds a b → b ∈ table.map Prod.fst :=
    fun a ha b hab => (hm b).2 (((hm a).1 ha).next hab)
  rw [names_orderStructs h hclosed]
  -- The roots of the order are all structs of the table, whatever names it was found from.
  have hclosure : ∀ name, Closure (structGraph table).Depends
      (· ∈ (p.structs.map (·.name)).filter fun name => (table.get? name).isSome) name ↔
        name ∈ table.map Prod.fst := by
    intro name
    constructor
    · intro hc
      refine hc.least (S := fun n => n ∈ table.map Prod.fst) (fun n => (mem_declared_iff h).1) ?_
      exact fun a b ha hab => hclosed a ha b ((depends_structGraph_iff h ha).1 hab)
    · exact fun hn => .seed ((mem_declared_iff h).2 hn)
  refine ((Graph.rejectsCycles_order _ _).congr (fun name => (hclosure name).trans (hm name))
    fun a b ha => ?_).mapError embeddingError
  exact depends_structGraph_iff h ((hclosure a).1 ha)

variable {seeds : List (List String)} {tables : List StructTable}

theorem hasStruct_tables (h : seeds.mapM p.reachedStructs = .ok tables) :
    ∀ entry ∈ tables.flatten, p.HasStruct entry.1 entry.2 := by
  intro entry hentry
  obtain ⟨table, htable, hentry⟩ := List.mem_flatten.1 hentry
  obtain ⟨names, -, hreach⟩ := forall₂_of_mem_right (mapM_eq_ok_iff.1 h) htable
  exact hasStruct_of_reachedStructs hreach entry hentry

/-- Searches find together what their seeds lead to. -/
theorem mem_tables_iff (h : seeds.mapM p.reachedStructs = .ok tables) {name : String} :
    name ∈ tables.flatten.map Prod.fst ↔
      Closure p.Embeds (fun n => ∃ names ∈ seeds, n ∈ names) name := by
  have hreached := mapM_eq_ok_iff.1 h
  rw [List.map_flatten, List.mem_flatten]
  constructor
  · intro ⟨_, hnames, hname⟩
    obtain ⟨table, htable, rfl⟩ := List.mem_map.1 hnames
    obtain ⟨names, hmem, hreach⟩ := forall₂_of_mem_right hreached htable
    exact ((mem_reachedStructs_iff hreach).1 hname).of_seeds fun n hn => .seed ⟨names, hmem, hn⟩
  · intro hc
    -- A struct that a search found leads only to structs that this search found, too.
    refine hc.least (S := fun n => ∃ l ∈ tables.map (List.map Prod.fst), n ∈ l) ?_ ?_
    · intro n ⟨names, hmem, hn⟩
      obtain ⟨table, htable, hreach⟩ := forall₂_of_mem_left hreached hmem
      exact ⟨_, List.mem_map_of_mem htable, (mem_reachedStructs_iff hreach).2 (.seed hn)⟩
    · intro a b ⟨_, hnames, ha⟩ hab
      obtain ⟨table, htable, rfl⟩ := List.mem_map.1 hnames
      obtain ⟨names, -, hreach⟩ := forall₂_of_mem_right hreached htable
      have hb := ((mem_reachedStructs_iff hreach).1 ha).next hab
      exact ⟨_, List.mem_map_of_mem htable, (mem_reachedStructs_iff hreach).2 hb⟩

end Structs

/-! ## Programs -/

/-- Recursion is refused exactly where it is reached.  The first part is about all graphs,
and its search with marks ends.  The others are about the calls that are recorded in any
table, the functions that entry points reach, for which these are the calls in them, and the
structs that any number of searches reach. -/
theorem rejectsRecursion :
    (∀ (g : Graph) (roots : List String),
      (∀ depth, g.length < depth → g.searchWithin depth roots = some (g.order roots)) ∧
        RejectsCycles g.Depends (· ∈ roots) Graph.Cycle.mk (g.order roots)) ∧
    (∀ (functions : Expanded Function) (entries : List String),
      ∃ answer, RejectsCycles functions.Calls (· ∈ entries)
          (fun f callee => Error.construct f (.recursiveCall callee)) answer ∧
        orderFunctions functions entries = answer.map (·.filterMap functions.get?)) ∧
    (∀ (p : Program) (entries : List String) (reached : Expanded Function),
      p.reachedFunctions entries = .ok reached →
        (∀ a ∈ reached.map Prod.fst, ∀ b, reached.Calls a b ↔ p.Calls a b) ∧
        RejectsCycles p.Calls (· ∈ entries)
          (fun f callee => .construct f (.recursiveCall callee))
          ((orderFunctions reached entries).map (·.map (·.qualifiedName)))) ∧
    (∀ (p : Program) (seeds : List (List String)) (tables : List StructTable),
      seeds.mapM p.reachedStructs = .ok tables →
        RejectsCycles p.Embeds (fun n => ∃ names ∈ seeds, n ∈ names)
          (fun d field => .construct d (.recursiveStruct field))
          ((p.orderStructs tables.flatten).map (·.map (·.name)))) := by
  refine ⟨fun g roots => ⟨fun depth => g.searchWithin_eq roots, g.rejectsCycles_order roots⟩,
    fun functions entries => ?_, fun p entries reached h => ⟨fun a ha b => calls_reached_iff h ha,
      rejectsCycles_functions h⟩, fun p seeds tables h => ?_⟩
  · exact ⟨_, rejectsCycles_callGraph functions entries, orderFunctions_eq functions entries⟩
  · exact rejectsCycles_orderStructs (hasStruct_tables h) fun _ => mem_tables_iff h

/-- Two functions that call each other, and two structs that contain each other. -/
def circular : Program where
  structs := [
    ⟨"Demo.Node", [⟨"Left", .named "Demo.Edge", none⟩]⟩,
    ⟨"Demo.Edge", [⟨"Ends", .array (.named "Demo.Node") 2, none⟩]⟩]
  resources := []
  functions := [even, odd]
  shaderSets := []
where
  even : FunctionDecl := calling "Demo.Even" "Demo.Odd"
  odd : FunctionDecl := calling "Demo.Odd" "Demo.Even"
  calling (name callee : String) : FunctionDecl := {
    name
    metadata := .helper
    params := []
    result := .scalar .bool
    body := [.ret (some (.call (.function callee) [] (some (.scalar .bool))))] }

theorem rejectsRecursion_circular :
    (∃ reached, circular.reachedFunctions ["Demo.Even"] = .ok reached ∧
      orderFunctions reached ["Demo.Even"] =
        .error (.construct "Demo.Odd" (.recursiveCall "Demo.Even")) ∧
      RejectsCycles circular.Calls (· ∈ ["Demo.Even"])
        (fun f callee => .construct f (.recursiveCall callee))
        ((orderFunctions reached ["Demo.Even"]).map (·.map (·.qualifiedName)))) ∧
    ∃ tables, [["Demo.Edge"], ["Demo.Node"]].mapM circular.reachedStructs = .ok tables ∧
      circular.orderStructs tables.flatten =
        .error (.construct "Demo.Edge" (.recursiveStruct "Demo.Node")) ∧
      RejectsCycles circular.Embeds (fun n => ∃ names ∈ [["Demo.Edge"], ["Demo.Node"]], n ∈ names)
        (fun d field => .construct d (.recursiveStruct field))
        ((circular.orderStructs tables.flatten).map (·.map (·.name))) := by
  have hfunctions : circular.reachedFunctions ["Demo.Even"] = .ok _ := rfl
  have hstructs : [["Demo.Edge"], ["Demo.Node"]].mapM circular.reachedStructs = .ok _ := rfl
  exact ⟨⟨_, hfunctions, rfl, (rejectsRecursion.2.2.1 _ _ _ hfunctions).2⟩,
    ⟨_, hstructs, rfl, rejectsRecursion.2.2.2 _ _ _ hstructs⟩⟩

end Program

end Shading
