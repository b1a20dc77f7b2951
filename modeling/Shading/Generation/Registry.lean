import Shading.Generation.Backend

/-!
# Registries

A registry says how to make a backend for a target.  It lists its entries in the
order of their first registration, each target once.  Registering a target again
changes its factory and not its place.
-/

namespace Shading

/-- Makes a backend, with the fixup that is asked for where it has one. -/
abbrev Factory := Option Fixup → Backend

/-- Factories by target. -/
structure Registry where
  entries : List (Target × Factory)

namespace Registry

/-- No backends. -/
def empty : Registry := ⟨[]⟩

/-- A list of entries with one target's factory set. -/
def setEntry (target : Target) (factory : Factory) :
    List (Target × Factory) → List (Target × Factory)
  | [] => [(target, factory)]
  | entry :: rest =>
    if entry.1 = target then (target, factory) :: rest else entry :: setEntry target factory rest

/-- Registers a factory under a target. -/
def register (r : Registry) (target : Target) (factory : Factory) : Registry :=
  ⟨setEntry target factory r.entries⟩

/-- A registry with the given entries registered in order. -/
def ofList (entries : List (Target × Factory)) : Registry :=
  entries.foldl (fun r entry => r.register entry.1 entry.2) empty

/-- Every target under its own name. -/
def standard : Registry :=
  ofList (Target.all.map fun target => (target, fun fixup => (target.language fixup).backend))

/-- The registered targets, in order of registration. -/
def targets (r : Registry) : List Target := r.entries.map Prod.fst

/-- Whether a target is registered. -/
def contains (r : Registry) (target : Target) : Bool := target ∈ r.targets

/-- A backend for a target, if the target is registered. -/
def create? (r : Registry) (fixup : Option Fixup) (target : Target) : Option Backend :=
  (r.entries.lookup target).map fun factory => factory fixup

/-- Backends for the targets that are registered, in the order asked for. -/
def createAll (r : Registry) (fixup : Option Fixup) (targets : List Target) : List Backend :=
  targets.filterMap (r.create? fixup)

@[simp] theorem lookup_setEntry_self (target : Target) (factory : Factory)
    (entries : List (Target × Factory)) :
    (setEntry target factory entries).lookup target = some factory := by
  induction entries with
  | nil => simp [setEntry]
  | cons entry rest ih =>
    rw [setEntry]
    split
    · simp
    · rename_i h
      rw [List.lookup_cons, ih]
      simp [show (target == entry.1) = false from beq_false_of_ne (Ne.symm h)]

/-- The factory registered last is the one that is used. -/
theorem create?_register_self (r : Registry) (fixup : Option Fixup) (target : Target)
    (factory : Factory) : (r.register target factory).create? fixup target = some (factory fixup) := by
  simp [create?, register]

theorem targets_standard : standard.targets = Target.all := rfl

end Registry

end Shading
