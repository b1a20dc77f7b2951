import Shading.Generation.Discovery
import Shading.Generation.Registry
import Shading.Generation.Result
import Shading.Model.Build

/-!
# Generation

`Program.generate` writes the sources of entry sets for targets.  Each set is
built, and there is a job for each set that is built and each backend.  A job gives
an output or an error.

When all jobs are done, their errors are replayed in the order of the request
(`replay`), with those of the sets that were refused.  What a failure does is a matter
of policy.  The first one ends the run, or all of them are reported beside the outputs.
-/

namespace Shading

/-- What a failure does to a run. -/
inductive FailurePolicy where
  /-- The first failure is the answer. -/
  | failFast
  /-- Failures are reported beside the outputs. -/
  | reportAll
deriving DecidableEq, Repr

instance : Named FailurePolicy where
  values := [.failFast, .reportAll]
  name
    | .failFast => "FailFast"
    | .reportAll => "ReportAll"

/-- The entry sets to generate. -/
inductive Request where
  | listed (sets : List EntrySet)
  /-- All sets that the program defines. -/
  | discovered

/-- The sets of a request. -/
def Request.entrySets (p : Program) : Request → List EntrySet
  | .listed sets => sets
  | .discovered => p.discover

/-- Sets that are asked for have to succeed.  Of discovered sets some may fail. -/
def Request.defaultPolicy : Request → FailurePolicy
  | .listed _ => .failFast
  | .discovered => .reportAll

/-- How to generate. -/
structure Options where
  /-- The targets in order.  Without them all that are registered are meant. -/
  targets : Option (List Target)
  policy : Option FailurePolicy
  fixup : Option Fixup

/-! ## Jobs -/

/-- The model of the set at a position of a request.  It has an entry point at least. -/
def Program.buildAt (p : Program) (index : Nat) (set : EntrySet) : Except Error Model :=
  if set.isEmpty then .error (.entryNotFound (.anyInSet index)) else p.build set

/-- The models of the sets of a request, or why they are refused. -/
def Program.models (p : Program) (sets : List EntrySet) : List (Except Error Model) :=
  sets.mapIdx p.buildAt

/-- A model written by a backend. -/
def Backend.output (b : Backend) (set : EntrySet) (m : Model) : Except Error Output := do
  return ⟨b.target, set, m, ← b.sources m set⟩

/-- A job of a run, by the position of its set in the request and that of its backend. -/
structure JobId (backends : List Backend) where
  index : Nat
  backend : Fin backends.length

section Jobs

variable {backends : List Backend}

/-- The target that a job writes. -/
def JobId.target (job : JobId backends) : Target := (backends.get job.backend).target

/-- A job for each set that is built and each backend. -/
def jobsOf (backends : List Backend) (models : List (Except Error Model)) :
    List (JobId backends) :=
  (models.zipIdx.filter fun (model, _) => model.isOk).flatMap fun (_, index) =>
    (List.finRange backends.length).map fun backend => ⟨index, backend⟩

/-- What becomes of the model of a job's set. -/
def JobId.outcome? (job : JobId backends) (sets : List EntrySet)
    (models : List (Except Error Model)) : Option (Except Error Output) := do
  let set ← sets[job.index]?
  let m ← (← models[job.index]?).toOption
  return (backends.get job.backend).output set m

/-- The jobs of a run with their outcomes. -/
def outcomesOf (backends : List Backend) (sets : List EntrySet)
    (models : List (Except Error Model)) : List (JobId backends × Except Error Output) :=
  (jobsOf backends models).filterMap fun job =>
    (job.outcome? sets models).map fun outcome => (job, outcome)

/-- The outputs of jobs with the positions of their sets. -/
def outputsOf (outcomes : List (JobId backends × Except Error Output)) : List (Nat × Output) :=
  outcomes.filterMap fun (job, outcome) => outcome.toOption.map fun output => (job.index, output)

/-- The errors of jobs. -/
def errorsOf (outcomes : List (JobId backends × Except Error Output)) :
    List (JobId backends × Error) :=
  outcomes.filterMap fun (job, outcome) =>
    match outcome with
    | .ok _ => none
    | .error error => some (job, error)

/-! ## Replay -/

/-- The failures of the set at a position, and the errors that are left for the sets
behind it.  A set that is refused has no jobs. -/
def takeFailures (index : Nat) (set : EntrySet) (errors : List (JobId backends × Error)) :
    Except Error Model → List Failure × List (JobId backends × Error)
  | .error error => ([⟨index, set, .building, error⟩], errors)
  | .ok _ =>
    let (own, later) := errors.span fun (job, _) => job.index = index
    (own.map fun (job, error) => ⟨index, set, .emitting job.target, error⟩, later)

/-- The first failure is the answer where it ends the run. -/
def FailurePolicy.admit : FailurePolicy → List Failure → Except Error Unit
  | .failFast, failure :: _ => .error failure.error
  | _, _ => .ok ()

/-- Goes through the sets of a request, each with its model and position, and takes their
failures from the errors of the jobs. -/
def replay (policy : FailurePolicy) :
    List ((EntrySet × Except Error Model) × Nat) → List (JobId backends × Error) →
      Except Error (List Failure)
  | [], _ => .ok []
  | ((set, model), index) :: rest, errors => do
    let (failures, later) := takeFailures index set errors model
    policy.admit failures
    return failures ++ (← replay policy rest later)

/-- The answer of a run whose outputs came in an order. -/
def conclude (policy : FailurePolicy) (sets : List EntrySet) (models : List (Except Error Model))
    (errors : List (JobId backends × Error)) (outputs : List (Nat × Output)) :
    Except Error Result := do
  let failures ← replay policy (sets.zip models).zipIdx errors
  return .collect (backends.map (·.target)) outputs failures

end Jobs

/-- Generates sets with backends. -/
def Program.run (p : Program) (backends : List Backend) (policy : FailurePolicy)
    (sets : List EntrySet) : Except Error Result :=
  let models := p.models sets
  let outcomes := outcomesOf backends sets models
  conclude policy sets models (errorsOf outcomes) (outputsOf outcomes)

/-- Generates what is requested with the backends of a registry. -/
def Program.generate (p : Program) (r : Registry) (request : Request) (options : Options) :
    Except Error Result :=
  p.run (r.createAll options.fixup (options.targets.getD r.targets))
    (options.policy.getD request.defaultPolicy) (request.entrySets p)

end Shading
