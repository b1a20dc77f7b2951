import Shading.Model.Model

/-!
# Results

A run records an output for each set and backend that succeeds and a failure for
each that does not.  Outputs are kept by target and set index.  The order they
come in does not matter, unless two have one target and one index: then the later
one replaces the earlier.  Failures are ordered by set index and by target, and a
set that could not be built comes before its targets.
-/

namespace Shading

/-- The sources of one set for one target. -/
structure Output where
  target : Target
  set : EntrySet
  model : Model
  /-- The sources of the set's stages, in pipeline order. -/
  sources : List (Stage × String)

/-- The source of a stage. -/
def Output.source? (o : Output) (stage : Stage) : Option String := o.sources.lookup stage

/-- What was done to a set when it failed. -/
inductive Phase where
  | building
  | emitting (target : Target)
deriving DecidableEq, Repr

namespace Phase

def text : Phase → String
  | .building => "building"
  | .emitting target => s!"emitting {target}"

/-- The target that was written. -/
def target? : Phase → Option Target
  | .building => none
  | .emitting target => some target

/-- Building comes before all targets, and targets in their order. -/
def rank : Phase → Nat
  | .building => 0
  | .emitting target => target.rank + 1

end Phase

/-- A set that failed, as a whole or for one target. -/
structure Failure where
  /-- The position of the set in the request. -/
  index : Nat
  set : EntrySet
  phase : Phase
  error : Error

/-- Whether a failure may stand before another. -/
def Failure.precedes (a b : Failure) : Bool :=
  a.index < b.index || (a.index = b.index && a.phase.rank ≤ b.phase.rank)

/-! ## Collected outputs -/

/-- Where an output is kept: its target and the position of its set in the request. -/
structure Place where
  target : Target
  index : Nat
deriving DecidableEq, Repr

/-- By target, then by index. -/
def Place.before (a b : Place) : Bool :=
  a.target.rank < b.target.rank || (a.target = b.target && a.index < b.index)

/-- Outputs by place, in order. -/
abbrev Collected := List (Place × Output)

/-- Keeps an output at its place.  One that is kept there already is replaced. -/
def Collected.insert (place : Place) (output : Output) : Collected → Collected
  | [] => [(place, output)]
  | entry :: rest =>
    if place.before entry.1 then (place, output) :: entry :: rest
    else if place = entry.1 then (place, output) :: rest
    else entry :: Collected.insert place output rest

/-- Outputs with the positions of their sets, in the order they come in. -/
def Collected.ofList (outputs : List (Nat × Output)) : Collected :=
  outputs.foldl
    (fun collected entry => Collected.insert ⟨entry.2.target, entry.1⟩ entry.2 collected) []

/-- The outputs for a target, by set index. -/
def Collected.outputsFor (collected : Collected) (target : Target) : List Output :=
  (collected.filter (·.1.target = target)).map Prod.snd

/-- An entry is the inserted one or was there before. -/
theorem Collected.mem_of_mem_insert {place : Place} {output : Output} {collected : Collected}
    {entry : Place × Output} (h : entry ∈ Collected.insert place output collected) :
    entry = (place, output) ∨ entry ∈ collected := by
  induction collected with
  | nil => exact .inl (by simpa [Collected.insert] using h)
  | cons first rest ih =>
    rw [Collected.insert] at h
    split at h
    · simpa using h
    · split at h
      · rcases List.mem_cons.1 h with h | h
        · exact .inl h
        · exact .inr (List.mem_cons_of_mem _ h)
      · rcases List.mem_cons.1 h with h | h
        · exact .inr (h ▸ List.mem_cons_self)
        · exact (ih h).imp id (List.mem_cons_of_mem _)

/-! ## Results -/

/-- What a run comes to. -/
structure Result where
  /-- The outputs for each target, by set index. -/
  outputs : List (Target × List Output)
  failures : List Failure

namespace Result

/-- The result for targets, from what was recorded. -/
def collect (targets : List Target) (outputs : List (Nat × Output)) (failures : List Failure) :
    Result where
  outputs :=
    let collected := Collected.ofList outputs
    targets.eraseDups.map fun target => (target, collected.outputsFor target)
  failures := failures.mergeSort Failure.precedes

/-- The outputs for a target. -/
def outputsFor (r : Result) (target : Target) : List Output := (r.outputs.lookup target).getD []

/-- Nothing failed. -/
def isComplete (r : Result) : Bool := r.failures.isEmpty

end Result

end Shading
