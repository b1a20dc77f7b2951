/-!
# Closures

`explore` expands names into values and further names until no new name turns
up.  Pending names form a stack.  The last one pushed is expanded first, and a
name that was expanded before is dropped.  The expansion of a name may fail, and
the first failure is the answer.

The search ends because every step but the last expands a new name.  The caller
bounds the number of names that can be expanded, and one more step finds the
stack empty.
-/

namespace Shading

/-- The names expanded so far, with what they were expanded to, in order. -/
abbrev Expanded (α : Type) := List (String × α)

/-- Whether a name was expanded. -/
def Expanded.has {α : Type} (found : Expanded α) (name : String) : Bool :=
  found.any fun entry => entry.1 == name

/-- What a name was expanded to. -/
def Expanded.get? {α : Type} (found : Expanded α) (name : String) : Option α := found.lookup name

/-- At most `steps` steps from a stack of pending names, the top first. -/
def exploreFrom {ε α : Type} (expand : String → Except ε (α × List String)) :
    (steps : Nat) → (pending : List String) → Expanded α → Except ε (Expanded α)
  | 0, _, found => .ok found
  | steps + 1, pending, found =>
    match pending.dropWhile found.has with
    | [] => .ok found
    | name :: rest =>
      match expand name with
      | .error e => .error e
      | .ok (value, next) =>
        exploreFrom expand steps (next.reverse ++ rest) (found ++ [(name, value)])

/-- Expands the seeds and all that follows from them.  At most `bound` names can be
expanded. -/
def explore {ε α : Type} (bound : Nat) (expand : String → Except ε (α × List String))
    (seeds : List String) : Except ε (Expanded α) :=
  exploreFrom expand (bound + 1) seeds.reverse []

theorem Expanded.has_iff {α : Type} {found : Expanded α} {name : String} :
    found.has name = true ↔ name ∈ found.map Prod.fst := by
  simp [Expanded.has]

/-- A step expands a name that was not expanded before. -/
theorem not_has_of_dropWhile {α : Type} {found : Expanded α} {pending rest : List String}
    {name : String} (h : pending.dropWhile found.has = name :: rest) :
    found.has name = false := by
  have hne : pending.dropWhile found.has ≠ [] := by simp [h]
  have := List.head_dropWhile_not found.has hne
  simpa [h] using this

end Shading
