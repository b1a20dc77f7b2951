import Shading.Graph.Closure

/-!
# Dependency graphs

A graph lists the names that each name depends on.  `Graph.reach` is what a name
depends on, itself included.  `Graph.order` lists what the roots depend on, each
name once and behind its own dependencies, or finds a dependency that closes a
cycle.

The order comes from a depth-first visit.  Its state is the list of names that
are done.  The names being visited are the path from the root, so a dependency on
the path closes a cycle.  A path repeats no name and every name on it but the
last has dependencies, so its length is bounded by the number of entries.
-/

namespace Shading

/-- The direct dependencies of names.  A name without an entry has none. -/
abbrev Graph := List (String × List String)

namespace Graph

/-- The direct dependencies of a name. -/
def next (g : Graph) (name : String) : List String := (g.lookup name).getD []

/-- The number of dependencies listed. -/
def size (g : Graph) : Nat := (g.flatMap Prod.snd).length

/-- A name and all it depends on, in the order they are found. -/
def reach (g : Graph) (name : String) : List String :=
  match explore (ε := Empty) (g.size + 1) (fun name => .ok ((), g.next name)) [name] with
  | .ok found => found.map Prod.fst
  | .error e => nomatch e

/-- A dependency that closes a cycle. -/
structure Cycle where
  /-- The name that depends. -/
  dependent : String
  /-- The name it depends on, which depends on it in turn. -/
  dependency : String
deriving DecidableEq, Repr

/-- Visits a name that is not done, with the path that led to it, the last name
first.  Answers what is done then. -/
def visit (g : Graph) :
    (depth : Nat) → (path done : List String) → String → Except Cycle (List String)
  | 0, _, done, _ => .ok done
  | depth + 1, path, done, name => do
    let done ← (g.next name).foldlM (fun done dependency =>
      if dependency ∈ name :: path then .error ⟨name, dependency⟩
      else if dependency ∈ done then .ok done
      else g.visit depth (name :: path) done dependency) done
    return done ++ [name]

/-- What the roots depend on, dependencies first. -/
def order (g : Graph) (roots : List String) : Except Cycle (List String) :=
  roots.foldlM (fun done root =>
    if root ∈ done then .ok done else g.visit (g.length + 1) [] done root) []

end Graph

/-! ## Examples -/

example : Graph.order [("vs", ["a", "b"]), ("a", ["b"]), ("b", [])] ["vs"] = .ok ["b", "a", "vs"] := by
  rfl

example : Graph.order [("vs", ["a"]), ("a", ["b"]), ("b", ["a"])] ["vs"] = .error ⟨"b", "a"⟩ := by
  rfl

example : Graph.reach [("vs", ["a"]), ("fs", ["b"]), ("a", []), ("b", [])] "vs" = ["vs", "a"] := by
  rfl

end Shading
