import Shading.Elaboration.Function
import Shading.Graph.Order
import Shading.Model.Bindings
import Shading.Model.Signature

/-!
# Building models

`Program.build` makes the model of an entry set, or says why there is none.

1. The entry points are found (`roots`).
2. The functions they reach are elaborated (`reachedFunctions`), and ordered
   with callees first (`orderFunctions`).
3. For each stage the resources and structs that its functions mention are
   elaborated (`stageUse`).
4. The structs are ordered (`orderStructs`), and the resources get their slots
   (`bind`).
5. The entry points, their helpers and the links between the stages are checked
   (`check`), and the sizes of uniform buffers are looked at.

The first fault found is the one reported.
-/

namespace Shading.Program

/-! ## Functions -/

/-- The entry points of a set: declared, and marked for their stage. -/
def roots (p : Program) (set : EntrySet) : Except Error (List (Stage × String)) :=
  set.entries.mapM fun (stage, name) =>
    match p.function? name with
    | none => .error (.entryNotFound (.named name))
    | some d =>
      if d.metadata.stage = some stage then .ok (stage, name)
      else .error (.notAnEntry name stage)

/-- A function and the functions it calls. -/
def expandFunction (p : Program) (name : String) : Except Error (Function × List String) :=
  match p.function? name with
  | none => .error (.entryNotFound (.named name))
  | some d => do
    let f ← p.elaborateFunction d
    return (f, f.callees)

/-- The functions that entry points reach, elaborated. -/
def reachedFunctions (p : Program) (entries : List String) :
    Except Error (Expanded Function) :=
  explore p.functions.length p.expandFunction entries

/-- The calls between functions. -/
def callGraph (functions : Expanded Function) : Graph :=
  functions.map fun (name, f) => (name, f.callees)

/-- The functions that entry points reach, callees first. -/
def orderFunctions (functions : Expanded Function) (entries : List String) :
    Except Error (List Function) :=
  match (callGraph functions).order entries with
  | .error cycle => fault cycle.dependent (.recursiveCall cycle.dependency)
  | .ok names => .ok (names.filterMap functions.get?)

/-! ## What a stage uses -/

/-- A struct and the structs its fields mention. -/
def expandStruct (p : Program) (name : String) : Except Error (StructDef × List String) :=
  match p.struct? name with
  | none => fault name (.unknownStructType name)
  | some d => do
    let d ← p.elaborateStruct d
    return (d, d.dependencies)

/-- The structs that seeds mention, and the structs mentioned by those. -/
def reachedStructs (p : Program) (seeds : List String) : Except Error StructTable :=
  explore p.structs.length p.expandStruct seeds

/-- The type of a resource that the entry point reaches. -/
def usedResource (p : Program) (entry name : String) : Except Error (String × ResourceTy) :=
  match p.resource? name with
  | none => fault entry (.unknownResource name)
  | some d => return (name, ← p.elaborateResource d)

/-- What a stage uses, elaborated. -/
structure StageUse where
  stage : Stage
  functions : List String
  resources : List (String × ResourceTy)
  structs : StructTable

/-- What the entry point of a stage reaches among ordered functions. -/
def stageUse (p : Program) (calls : Graph) (functions : List Function)
    (stage : Stage) (entry : String) : Except Error StageUse := do
  let reached := calls.reach entry
  let own := functions.filter fun f => f.qualifiedName ∈ reached
  let resources ← (own.flatMap fun f => Core.resourcesOf f.body).eraseDups.mapM (p.usedResource entry)
  let elements := resources.flatMap fun r => (r.2.element.map Ty.structs).getD []
  let structs ← p.reachedStructs (own.flatMap Function.structs ++ elements).eraseDups
  return ⟨stage, reached, resources, structs⟩

/-- The names a stage uses. -/
def StageUse.usage (u : StageUse) : Usage :=
  ⟨u.functions, u.resources.map Prod.fst, u.structs.map Prod.fst⟩

/-! ## Structs and resources of a model -/

/-- The mentions between structs. -/
def structGraph (structs : StructTable) : Graph :=
  structs.map fun (name, d) => (name, d.dependencies)

/-- The structs in declaration order, but each behind the structs it mentions. -/
def orderStructs (p : Program) (structs : StructTable) : Except Error (List StructDef) :=
  let declared := (p.structs.map (·.name)).filter fun name => (structs.get? name).isSome
  match (structGraph structs).order declared with
  | .error cycle => fault cycle.dependent (.recursiveStruct cycle.dependency)
  | .ok names => .ok (names.filterMap structs.get?)

/-- The used resources in declaration order, bound to their slots.  A name stands
for its first declaration. -/
def bind (types : List (String × ResourceTy)) : List (ResourceDecl × Slot) → List Binding
  | [] => []
  | (d, slot) :: rest =>
    match types.lookup d.name with
    | none => bind types rest
    | some ty => ⟨d.name, ty, slot⟩ :: bind (types.filter (·.1 ≠ d.name)) rest

/-- The warning about a uniform buffer, if there is one. -/
def sizeWarning? (structs : StructTable) (b : Binding) : Option Warning :=
  match b.ty.kind, b.ty.element with
  | .uniformBuffer, some element =>
    let size := structs.hostSize element
    if size % 16 = 0 then none else some (.uniformSize b.name size)
  | _, _ => none

/-! ## Checks -/

/-- Checks an entry point and the functions its stage reaches. -/
def checkStage (structs : StructTable) (functions : List Function) (u : StageUse)
    (entry : String) : Except Error (List Warning) := do
  let warnings ←
    match functions.find? (·.qualifiedName == entry) with
    | none => pure []
    | some f => Signature.Entry.check ⟨f, u.stage, structs⟩
  (functions.filter fun f => f.qualifiedName ∈ u.functions).forM (checkIntrinsics u.stage)
  return warnings

/-- Checks the links between the stages of a set. -/
def checkLinks (structs : StructTable) (functions : List Function) (set : EntrySet) :
    Except Error Unit :=
  let find (name : Option String) : Option Function :=
    name.bind fun name => functions.find? (·.qualifiedName == name)
  match find set.vertex with
  | none => .ok ()
  | some vertex => do
    checkVertexInput vertex (find set.fragment)
    match find set.fragment with
    | none => return ()
    | some fragment => checkVaryings structs vertex fragment

/-! ## The model -/

/-- The model of an entry set. -/
def build (p : Program) (set : EntrySet) : Except Error Model := do
  let roots ← p.roots set
  let entries := roots.map Prod.snd
  let reached ← p.reachedFunctions entries
  let functions ← orderFunctions reached entries
  let uses ← roots.mapM fun (stage, entry) =>
    p.stageUse (callGraph reached) functions stage entry
  let structTable := uses.flatMap StageUse.structs
  let structs ← p.orderStructs structTable
  let resources :=
    bind (uses.flatMap StageUse.resources) (p.resources.zip (assignSlots p.resources))
  checkCollisions resources
  let warnings ← (uses.zip entries).mapM fun (u, entry) =>
    checkStage structTable functions u entry
  (functions.filter fun f => f.qualifiedName ∉ entries).forM checkHelper
  checkLinks structTable functions set
  return {
    structs, resources, functions
    entryPoints := set
    usage := uses.map fun u => (u.stage, u.usage)
    warnings := warnings.flatten ++ resources.filterMap (sizeWarning? structTable) }

end Shading.Program
