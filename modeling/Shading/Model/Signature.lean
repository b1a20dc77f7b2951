import Shading.Model.HostSize
import Shading.Model.Model

/-!
# Signatures of entry points

The signature of an entry point has to fit its stage.  A parameter is an input:
a builtin of the stage, or the one struct the stage reads.  A result is what the
stage writes.  The structs read and written are *interface structs*: their
fields are scalars and vectors of numbers and carry no builtins.

Between the stages, the fragment stage reads varyings that the vertex stage
writes at the same locations, with the same semantics and types.  A struct that
vertices are read from is not written by any stage.
-/

namespace Shading

namespace Signature

/-- An entry point with the structs its signature may mention. -/
structure Entry where
  function : Function
  stage : Stage
  structs : StructTable

/-- Refuses a signature. -/
def Entry.refuse {α : Type} (e : Entry) (reason : SignatureFault) : Except Error α :=
  .error (.signature e.function.qualifiedName e.stage reason)

/-- Refuses a signature if there is a reason to. -/
def Entry.require (e : Entry) : Option SignatureFault → Except Error Unit
  | none => .ok ()
  | some reason => e.refuse reason

/-! ## Interface structs -/

/-- Why a field cannot cross a stage boundary. -/
def fieldFault? (struct : String) (field : Field) : Option SignatureFault :=
  if !field.ty.isInterface || field.ty.scalarKind? = some .bool then
    some (.interfaceField struct field.name field.ty)
  else (field.semantic.filter Semantic.isBuiltin).map (.interfaceBuiltin struct field.name)

/-- The interface struct of a name. -/
def Entry.interfaceStruct (e : Entry) (name : String) : Except Error StructDef :=
  match e.structs.get? name with
  | none => e.refuse (.unknownStruct name)
  | some d => do
    e.require (d.fields.findSome? (fieldFault? name))
    return d

/-! ## Parameters -/

/-- The type a builtin of a stage has. -/
def builtinTy : Stage → Ty
  | .compute => .vector .uint 3
  | _ => .uint

/-- Why a parameter cannot receive a builtin. -/
def builtinFault? (stage : Stage) (param : Parameter) (semantic : Semantic) :
    Option SignatureFault :=
  if semantic.builtinStage? ≠ some stage then some (.builtinStage semantic stage)
  else if param.ty ≠ builtinTy stage then
    some (.builtinType semantic param.name (builtinTy stage) param.ty)
  else none

/-- Checks parameters.  At most one is a struct, and none when one came before. -/
def Entry.checkParams (e : Entry) : (hasInput : Bool) → List Parameter → Except Error Unit
  | _, [] => .ok ()
  | hasInput, param :: rest => do
    if param.passing ≠ .input then e.refuse (.notAnInput param.name)
    else
      match param.builtin? with
      | some semantic =>
        e.require (builtinFault? e.stage param semantic)
        e.checkParams hasInput rest
      | none =>
        match param.ty.structName? with
        | some name =>
          if e.stage = .compute then e.refuse (.paramRole param.name e.stage)
          else if hasInput then e.refuse .secondInput
          else
            let _ ← e.interfaceStruct name
            e.checkParams true rest
        | none => e.refuse (.paramRole param.name e.stage)

/-! ## Results -/

/-- Why a struct cannot hold the position a vertex stage writes. -/
def positionFault? (d : StructDef) : Option SignatureFault :=
  match d.positions with
  | [position] =>
    if position.ty = .float4 then none
    else some (.positionType d.name position.name position.ty)
  | [] => some (.noPosition d.name)
  | _ => some (.manyPositions d.name)

/-- The render target a field is written to. -/
def target? (field : Field) : Option UInt32 :=
  match field.semantic with
  | some (.colorTarget n) => some n
  | _ => none

/-- Why a vertex stage cannot write a struct: a field goes to a render target. -/
def vertexTargetFault? (d : StructDef) : Option SignatureFault :=
  (d.fields.find? fun field => (target? field).isSome).map fun field =>
    .vertexTarget d.name field.name

/-- Checks the result of a vertex entry. -/
def Entry.checkVertex (e : Entry) : Except Error Unit :=
  match e.function.result with
  | .struct name => do
    let d ← e.interfaceStruct name
    e.require (positionFault? d)
    e.require (vertexTargetFault? d)
  | ty => e.require (if ty = .float4 then none else some (.vertexResult ty))

/-- Why fields cannot be written to render targets, after targets already written. -/
def targetsFault? (struct : String) : (written : List UInt32) → List Field → Option SignatureFault
  | [], [] => some (.noTargets struct)
  | _, [] => none
  | written, field :: rest =>
    match target? field with
    | none => some (.missingTarget struct field.name)
    | some n =>
      if n ∈ written then some (.repeatedTarget struct n)
      else targetsFault? struct (n :: written) rest

/-- Checks the result of a fragment entry. -/
def Entry.checkFragment (e : Entry) : Except Error Unit :=
  match e.function.result with
  | .struct name => do
    let d ← e.interfaceStruct name
    e.require (targetsFault? name [] d.fields)
  | ty => e.require (if ty = .void ∨ ty = .float4 then none else some (.fragmentResult ty))

/-- Checks the thread group of a compute entry. -/
def Entry.checkGroup (e : Entry) : Except Error (List Warning) :=
  match e.function.groupSize with
  | none => e.refuse .noGroupSize
  | some size =>
    if size.hasEmptyDimension then e.refuse (.emptyGroup size)
    else if maxGroupInvocations < size.invocations then
      .ok [.largeGroup e.function.qualifiedName size]
    else .ok []

/-- Checks an entry point against the rules of its stage. -/
def Entry.check (e : Entry) : Except Error (List Warning) :=
  match e.stage with
  | .vertex => do
    e.checkParams false e.function.params
    e.checkVertex
    return []
  | .fragment => do
    e.checkParams false e.function.params
    e.checkFragment
    return []
  | .compute => do
    e.require (if e.function.result.isVoid then none else some .computeResult)
    e.checkParams false e.function.params
    e.checkGroup

end Signature

/-! ## Between the stages -/

/-- Refuses a struct that vertices are read from and that a stage writes. -/
def checkVertexInput (vertex : Function) (fragment : Option Function) : Except Error Unit :=
  match vertex.inputStruct? with
  | none => .ok ()
  | some input =>
    let outputs := vertex.result :: (fragment.map (·.result)).toList
    if outputs.any (·.structName? = some input) then
      .error (.signature vertex.qualifiedName .vertex (.inputAsOutput input))
    else .ok ()

/-- The semantic a varying is linked by.  Without one it is a texture coordinate. -/
def Field.linkage (field : Field) : Semantic := field.semantic.getD .textureCoordinate

/-- Whether a varying that is written can be read as another. -/
def Field.links (written read : Field) : Bool :=
  written.ty = read.ty && written.linkage = read.linkage

/-- A varying as it is spelled in messages. -/
def Field.varyingText (struct : String) (field : Field) : VaryingText :=
  ⟨struct, field.name, field.linkage, field.ty⟩

/-- The first varying read, from a location on, that is not written there. -/
def unlinked? (written : List Field) : (location : Nat) → List Field → Option (Nat × Field)
  | _, [] => none
  | location, field :: rest =>
    if (written[location]?).any (·.links field) then unlinked? written (location + 1) rest
    else some (location, field)

/-- Refuses a fragment stage that reads a varying the vertex stage does not write. -/
def checkVaryings (structs : StructTable) (vertex fragment : Function) : Except Error Unit :=
  match fragment.inputStruct?.bind structs.get? with
  | none => .ok ()
  | some input =>
    let output := vertex.result.structName?.bind structs.get?
    let written := (output.map StructDef.varyings).getD []
    match unlinked? written 0 input.varyings with
    | none => .ok ()
    | some (location, field) =>
      let found := output.bind fun o => (written[location]?).map (·.varyingText o.name)
      .error (.signature fragment.qualifiedName .fragment
        (.varying (field.varyingText input.name) location found))

/-! ## Helpers and stages -/

/-- Refuses a builtin on a parameter of a helper. -/
def checkHelper (f : Function) : Except Error Unit :=
  match f.params.find? (·.builtin?.isSome) with
  | none => .ok ()
  | some param => .error (.construct f.qualifiedName (.builtinOutsideEntry param.name))

/-- Whether a stage can call an intrinsic.  Derivatives compare neighbouring pixels,
and a barrier waits for a thread group. -/
def Intrinsic.isAvailable (i : Intrinsic) (stage : Stage) : Bool :=
  if i.isDerivative then stage = .fragment
  else if i = .barrier then stage = .compute
  else true

/-- Refuses a function with an intrinsic that a stage cannot call. -/
def checkIntrinsics (stage : Stage) (f : Function) : Except Error Unit :=
  match (Core.intrinsicsOf f.body).find? (!·.isAvailable stage) with
  | none => .ok ()
  | some i => .error (.construct f.qualifiedName (.stageIntrinsic i stage))

end Shading
