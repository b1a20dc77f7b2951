import Shading.Target.Language

/-!
# GLSL

Three versions of GLSL share types, stage wiring and intrinsics.  A `Version`
says in what they differ: the start of a source, the textures they can declare,
the layouts of resources and varyings, and how a texture meets its sampler.

The entry point is an ordinary function.  `main` calls it: it fills a struct with
the stage's inputs, passes it, and copies the fields of the result to the stage's
outputs.  Varyings are named by location, so that both stages name them alike.
-/

namespace Shading.Glsl

/-- The words that are no names. -/
def reserved : List String := [
  "active", "asm", "attribute", "bool", "break", "buffer", "bvec2", "bvec3", "bvec4", "case",
  "cast", "centroid", "class", "coherent", "common", "const", "continue", "default", "discard",
  "do", "double", "else", "enum", "extern", "external", "false", "filter", "fixed", "flat",
  "float", "for", "goto", "half", "highp", "if", "in", "inline", "inout", "input", "int",
  "interface", "invariant", "ivec2", "ivec3", "ivec4", "layout", "long", "lowp", "main", "mat2",
  "mat3", "mat4", "mediump", "namespace", "noinline", "noperspective", "out", "output",
  "partition", "patch", "precision", "public", "readonly", "resource", "restrict", "return",
  "sample", "sampler", "sampler2D", "shared", "short", "sizeof", "smooth", "static", "struct",
  "subroutine", "superp", "switch", "template", "texture", "this", "true", "typedef", "uint",
  "uniform", "union", "unsigned", "using", "uvec2", "uvec3", "uvec4", "varying", "vec2", "vec3",
  "vec4", "void", "volatile", "while", "writeonly"]

/-! ## Versions -/

/-- What one version of GLSL has of its own. -/
structure Version where
  target : Target
  capabilities : List Capability
  /-- The fixup applied when none is asked for. -/
  defaultFixup : Fixup
  /-- The first lines of a source, for a stage that declares storage buffers or not. -/
  versionLines : Stage → (storage : Bool) → List String
  /-- The type of a texture or a sampler, if it can be declared. -/
  textureName? : ResourceKind → Option String
  /-- The layout of a resource, with the packing of a buffer. -/
  resourceLayout : Slot → (packing : Option String) → String
  /-- What is sampled: a texture with its type, and a sampler. -/
  samplerText : Operand → Operand → String
  /-- The layout of the varying at a location. -/
  varyingLayout : Nat → String
  /-- The variable that holds a builtin of the vertex stage. -/
  vertexBuiltin? : Semantic → Option String
  /-- Whether a stage can declare storage buffers. -/
  storageBuffers : Stage → Bool

/-- Desktop OpenGL 3.3.  A texture is declared with its sampler, so samplers are not
declared and a texture alone is sampled. -/
def core330 : Version where
  target := .glsl330
  capabilities := [.vertex, .fragment, .compute, .structuredBuffers, .multisampleTextures]
  defaultFixup := ⟨true, false⟩
  versionLines stage storage :=
    "#version 330 core" ::
      (if stage = .compute then
        ["#extension GL_ARB_compute_shader : enable",
          "#extension GL_ARB_shader_storage_buffer_object : enable"]
      else if storage then ["#extension GL_ARB_shader_storage_buffer_object : enable"]
      else [])
  textureName?
    | .texture2D | .depthTexture2D => some "sampler2D"
    | .texture2DArray => some "sampler2DArray"
    | .textureCube => some "samplerCube"
    | .texture2DMS => some "sampler2DMS"
    | _ => none
  resourceLayout _ packing :=
    match packing with
    | none => ""
    | some packing => "layout(" ++ packing ++ ") "
  samplerText texture _ := texture.text
  varyingLayout _ := ""
  vertexBuiltin?
    | .vertexIndex => some "gl_VertexID"
    | .instanceIndex => some "gl_InstanceID"
    | _ => none
  storageBuffers _ := true

/-- OpenGL ES 3.0, and 3.1 for compute stages.  It is desktop OpenGL without
multisample textures, and with storage buffers in compute stages only. -/
def es300 : Version :=
  { core330 with
    target := .glslEs300
    capabilities := [.vertex, .fragment, .compute, .structuredBuffers]
    versionLines := fun stage _ =>
      [if stage = .compute then "#version 310 es" else "#version 300 es",
        "precision highp float;", "precision highp int;", "precision highp sampler2DArray;"]
    textureName? := fun kind =>
      if kind = .texture2DMS then none else core330.textureName? kind
    storageBuffers := fun stage => stage = .compute }

/-- GLSL 4.50 for Vulkan.  Textures and samplers are declared apart, with their sets
and slots, and combined where a texture is sampled. -/
def vulkan450 : Version where
  target := .glsl450
  capabilities := Named.values
  defaultFixup := ⟨false, true⟩
  versionLines _ _ :=
    ["#version 450", "#extension GL_ARB_separate_shader_objects : enable",
      "#extension GL_ARB_shading_language_420pack : enable"]
  textureName?
    | .texture2D | .depthTexture2D => some "texture2D"
    | .texture2DArray => some "texture2DArray"
    | .textureCube => some "textureCube"
    -- A multisample texture is only ever fetched from, so it needs no sampler.
    | .texture2DMS => some "sampler2DMS"
    | .sampler => some "sampler"
    | _ => none
  resourceLayout slot packing :=
    "layout(set = " ++ toString slot.set ++ ", binding = " ++ toString slot.slot ++
      (match packing with
        | none => ""
        | some packing => ", " ++ packing) ++ ") "
  samplerText texture sampler :=
    (match texture.ty.resourceKind? with
      | some .texture2DArray => "sampler2DArray"
      | some .textureCube => "samplerCube"
      | _ => "sampler2D") ++ "(" ++ texture.text ++ ", " ++ sampler.text ++ ")"
  varyingLayout location := "layout(location = " ++ toString location ++ ") "
  vertexBuiltin?
    | .vertexIndex => some "gl_VertexIndex"
    | .instanceIndex => some "gl_InstanceIndex"
    | _ => none
  storageBuffers _ := true

/-! ## Types -/

/-- What a vector type starts with. -/
def vectorMark : ScalarKind → String
  | .bool => "b"
  | .int => "i"
  | .uint => "u"
  | .float => ""

/-- The spelling of a type that is a texture, a sampler or nothing. -/
def resourceName (v : Version) (kind : ResourceKind) (ty : Ty) : Except Error String :=
  match v.textureName? kind with
  | some name => .ok name
  | none => .error (.unsupportedType v.target ty)

/-- The spelling of a type.  A buffer is spelled as its element. -/
def typeName (v : Version) : Ty → Except Error String
  | .void => .ok "void"
  | .scalar kind => .ok kind.text
  | .vector kind size => .ok (vectorMark kind ++ "vec" ++ toString size)
  | .matrix => .ok "mat4"
  | .struct name => .ok (correctedName reserved (Name.mangle name))
  | .array element length => do
    return (← typeName v element) ++ "[" ++ toString length ++ "]"
  | .resource kind access =>
    if kind.isBuffer then .error (.unsupportedType v.target (.resource kind access))
    else resourceName v kind (.resource kind access)
  | .resourceOf kind element access =>
    if kind.isBuffer then typeName v element
    else resourceName v kind (.resourceOf kind element access)

/-! ## Intrinsics -/

/-- A texture sampled at coordinates and, if there is one, a level of detail.  A depth
texture has one component. -/
def sampleText (v : Version) (texture sampler coordinates : Operand) (level : Option Operand) :
    String :=
  let sampled := v.samplerText texture sampler
  let text :=
    match level with
    | some level => "textureLod(" ++ sampled ++ ", " ++ coordinates.text ++ ", " ++ level.text ++ ")"
    | none => "texture(" ++ sampled ++ ", " ++ coordinates.text ++ ")"
  if texture.ty.resourceKind? = some .depthTexture2D then text ++ ".r" else text

/-- The intrinsics that are not spelled as in all targets. -/
def ownIntrinsic? (v : Version) : Intrinsic → List Operand → Option String
  | .atan2, args => some (callText "atan" args)
  | .frac, args => some (callText "fract" args)
  | .lerp, args => some (callText "mix" args)
  | .rsqrt, args => some (callText "inversesqrt" args)
  | .saturate, x :: _ => some ("clamp(" ++ x.text ++ ", 0.0, 1.0)")
  | .ddx, args => some (callText "dFdx" args)
  | .ddy, args => some (callText "dFdy" args)
  | .sample, texture :: sampler :: coordinates :: rest
  | .sampleLevel, texture :: sampler :: coordinates :: rest =>
    some (sampleText v texture sampler coordinates rest.head?)
  | .load, [texture, coordinates, sample] =>
    some ("texelFetch(" ++ texture.text ++ ", ivec2(" ++ coordinates.text ++ "), int(" ++
      sample.text ++ "))")
  | .barrier, _ => some "barrier()"
  | _, _ => none

/-- How function bodies are spelled. -/
def dialect (v : Version) : Dialect where
  target := v.target
  reserved := reserved
  typeName := typeName v
  floatSuffix := ""
  castText ty operand := ty ++ "(" ++ operand ++ ")"
  callsMul := false
  parameter := parameterText reserved (typeName v)
  ownIntrinsic? := ownIntrinsic? v

/-! ## Declarations -/

/-- The start of a source: the version and the thread group of a compute stage. -/
def header (v : Version) (c : Context) : Code :=
  let storage := (c.model.resourcesFor c.stage).any (·.ty.kind = .structuredBuffer)
  let group :=
    match c.stage, (c.model.entryFunction? c.stage).bind (·.groupSize) with
    | .compute, some size =>
      Code.line ("layout(local_size_x = " ++ toString size.x ++ ", local_size_y = " ++
        toString size.y ++ ", local_size_z = " ++ toString size.z ++ ") in;")
    | _, _ => []
  (v.versionLines c.stage storage).flatMap Code.line ++ group ++ Code.blank

/-- A field of a struct. -/
def fieldLine (v : Version) (field : Field) : Except Error Code := do
  let d := dialect v
  return Code.line ((← d.declaration field.ty (d.identifier field.name)) ++ ";")

/-- The definition of a struct. -/
def struct (v : Version) (d : StructDef) : Except Error Code := do
  let fields ← Language.collect (fieldLine v) d.fields
  return Code.line ("struct " ++ (dialect v).globalName d.name) ++ Code.block fields ";" ++
    Code.blank

/-- The word for a storage buffer that is only read. -/
def accessText : Access → String
  | .readOnly => "readonly "
  | .readWrite => ""

/-- The declaration of a resource.  A buffer is a variable in a block, and a sampler is
not declared where textures have their own. -/
def resource (v : Version) (c : Context) (b : Binding) : Except Error Code := do
  let d := dialect v
  let name := d.identifier b.name
  let block := Name.mangle b.name ++ "Buffer"
  match b.ty.kind with
  | .uniformBuffer =>
    let declaration ← d.declaration b.ty.toTy name
    return Code.line (v.resourceLayout b.slot (some "std140") ++ "uniform " ++ block) ++
      Code.block (Code.line (declaration ++ ";")) ";" ++ Code.blank
  | .structuredBuffer =>
    if v.storageBuffers c.stage then
      let ty ← typeName v b.ty.toTy
      return Code.line (v.resourceLayout b.slot (some "std430") ++ accessText b.ty.access ++
          "buffer " ++ block) ++
        Code.block (Code.line (ty ++ " " ++ name ++ "[];")) ";" ++ Code.blank
    else .error (.unsupportedType v.target b.ty.toTy)
  | kind =>
    if kind = .sampler ∧ .separateSamplers ∉ v.capabilities then return []
    else
      let ty ← typeName v b.ty.toTy
      return Code.line (v.resourceLayout b.slot none ++ "uniform " ++ ty ++ " " ++ name ++ ";") ++
        Code.blank

/-! ## Stage wiring -/

/-- The struct of a model that a type names, if it names one. -/
def interfaceStruct (c : Context) (ty : Ty) : Except Error (Option StructDef) :=
  match ty.structName? with
  | none => .ok none
  | some name =>
    match c.model.struct? name with
    | none => .error (.construct c.symbol (.unknownStruct name))
    | some d => .ok (some d)

/-- The struct a stage reads. -/
def inputStruct (c : Context) (f : Function) : Except Error (Option StructDef) :=
  match f.input? with
  | none => .ok none
  | some p => interfaceStruct c p.ty

/-- The variable that holds a builtin. -/
def builtin? (v : Version) : Semantic → Option String
  | .dispatchThreadId => some "gl_GlobalInvocationID"
  | .groupThreadId => some "gl_LocalInvocationID"
  | .groupId => some "gl_WorkGroupID"
  | semantic => v.vertexBuiltin? semantic

/-- What `main` passes for a parameter.  Indices of the vertex stage are signed there. -/
def argument (v : Version) (c : Context) (p : Parameter) : Except Error String :=
  match p.builtin? with
  | none => .ok "_stage_input"
  | some semantic =>
    match builtin? v semantic with
    | none => .error (.construct c.symbol (.noBuiltin semantic))
    | some name =>
      if semantic.builtinStage? = some .vertex then .ok ("uint(" ++ name ++ ")") else .ok name

/-- The call of the entry point. -/
def entryCall (v : Version) (c : Context) (f : Function) : Except Error String := do
  let args ← f.params.mapM (argument v c)
  return (dialect v).functionName c.model c.stage f ++ "(" ++ ", ".intercalate args ++ ")"

/-- The name of the varying at a location. -/
def varyingName (location : Nat) : String := "fsin_" ++ toString location

/-- Integers are not interpolated. -/
def interpolation (ty : Ty) : String := if ty.isInteger then "flat " else ""

/-- The declaration of a varying that is written (`out`) or read (`in`). -/
def varyingLine (v : Version) (direction : String) (location : Nat) (field : Field) :
    Except Error Code := do
  let declaration ← (dialect v).declaration field.ty (varyingName location)
  return Code.line (v.varyingLayout location ++ interpolation field.ty ++ direction ++ " " ++
    declaration ++ ";")

/-- The declarations of the varyings of a struct. -/
def varyingLines (v : Version) (direction : String) (d : StructDef) : Except Error Code :=
  Language.collect (fun (field, location) => varyingLine v direction location field)
    d.varyings.zipIdx

/-- The struct that is filled with the stage's inputs. -/
def inputVariable (v : Version) (d : StructDef) : Code :=
  Code.line ((dialect v).globalName d.name ++ " _stage_input;")

/-- A field of the stage's input is set. -/
def inputLine (v : Version) (field : Field) (value : String) : Code :=
  Code.line ("_stage_input." ++ (dialect v).identifier field.name ++ " = " ++ value ++ ";")

/-- The entry point is called for a struct. -/
def outputVariable (v : Version) (d : StructDef) (call : String) : Code :=
  Code.line ((dialect v).globalName d.name ++ " _stage_output = " ++ call ++ ";")

/-- A variable is set from a field of the result. -/
def outputLine (v : Version) (name : String) (field : Field) : Code :=
  Code.line (name ++ " = _stage_output." ++ (dialect v).identifier field.name ++ ";")

/-- The function `main`. -/
def mainFunction (body : Code) : Code := Code.line "void main()" ++ Code.block body ""

/-! ### The vertex stage -/

/-- The declaration of the vertex attribute at a location. -/
def attributeLine (v : Version) (location : Nat) (field : Field) : Except Error Code := do
  let d := dialect v
  let declaration ← d.declaration field.ty (d.identifier field.name)
  return Code.line ("layout(location = " ++ toString location ++ ") in " ++ declaration ++ ";")

/-- The declarations of vertex attributes. -/
def attributeLines (v : Version) (d : StructDef) : Except Error Code :=
  Language.collect (fun (field, location) => attributeLine v location field) d.fields.zipIdx

/-- The input struct is filled from the attributes. -/
def attributeInputs (v : Version) (d : StructDef) : Code :=
  inputVariable v d ++
    d.fields.flatMap fun field => inputLine v field ((dialect v).identifier field.name)

/-- The position and the varyings are set from the result. -/
def vertexOutputs (v : Version) (output : Option StructDef) (call : String) : Code :=
  match output with
  | none => Code.line ("gl_Position = " ++ call ++ ";")
  | some d =>
    outputVariable v d call ++
      d.positions.flatMap (outputLine v "gl_Position") ++
      d.varyings.zipIdx.flatMap fun (field, location) => outputLine v (varyingName location) field

/-- The position is moved to the clip space of the target. -/
def fixupLines (fixup : Fixup) : Code :=
  (if fixup.depthRemap then Code.line "gl_Position.z = gl_Position.z * 2.0 - gl_Position.w;"
    else []) ++
  (if fixup.flipY then Code.line "gl_Position.y = -gl_Position.y;" else [])

/-- The wiring of a vertex stage. -/
def vertexMain (v : Version) (fixup : Fixup) (c : Context) (f : Function) : Except Error Code := do
  let input ← inputStruct c f
  let output ← interfaceStruct c f.result
  let attributes ← Language.collect (attributeLines v) input.toList
  let varyings ← Language.collect (varyingLines v "out") output.toList
  let call ← entryCall v c f
  return attributes ++ varyings ++ Code.blank ++
    mainFunction (input.toList.flatMap (attributeInputs v) ++ vertexOutputs v output call ++
      fixupLines fixup)

/-! ### The fragment stage -/

/-- The name of the variable for a render target. -/
def targetName (index : UInt32) : String := "_outputColor_" ++ toString index

/-- The render target a field is written to. -/
def target? (field : Field) : Option UInt32 :=
  match field.semantic with
  | some (.colorTarget n) => some n
  | _ => none

/-- The fields of a struct that are written to render targets. -/
def targets (d : StructDef) : List (Field × UInt32) :=
  d.fields.filterMap fun field => (target? field).map (field, ·)

/-- The declaration of a render target. -/
def targetLine (v : Version) (field : Field) (index : UInt32) : Except Error Code := do
  let declaration ← (dialect v).declaration field.ty (targetName index)
  return Code.line ("layout(location = " ++ toString index ++ ") out " ++ declaration ++ ";")

/-- The declarations of the render targets of a result. -/
def targetLines (v : Version) (result : Ty) : Option StructDef → Except Error Code
  | some d => Language.collect (fun (field, index) => targetLine v field index) (targets d)
  | none =>
    if result.isVoid then .ok []
    else .ok (Code.line ("layout(location = 0) out vec4 " ++ targetName 0 ++ ";"))

/-- The input struct is filled from the varyings and the position of the pixel. -/
def fragmentInputs (v : Version) : (location : Nat) → List Field → Code
  | _, [] => []
  | location, field :: rest =>
    if field.semantic = some .systemPosition then
      inputLine v field "gl_FragCoord" ++ fragmentInputs v location rest
    else inputLine v field (varyingName location) ++ fragmentInputs v (location + 1) rest

/-- The render targets are set from the result. -/
def fragmentOutputs (v : Version) (result : Ty) (output : Option StructDef) (call : String) :
    Code :=
  match output with
  | some d =>
    outputVariable v d call ++
      (targets d).flatMap fun (field, index) => outputLine v (targetName index) field
  | none =>
    if result.isVoid then Code.line (call ++ ";")
    else Code.line (targetName 0 ++ " = " ++ call ++ ";")

/-- The wiring of a fragment stage. -/
def fragmentMain (v : Version) (c : Context) (f : Function) : Except Error Code := do
  let input ← inputStruct c f
  let output ← interfaceStruct c f.result
  let varyings ← Language.collect (varyingLines v "in") input.toList
  let targets ← targetLines v f.result output
  let call ← entryCall v c f
  let inputs := input.toList.flatMap fun d => inputVariable v d ++ fragmentInputs v 0 d.fields
  return varyings ++ targets ++ Code.blank ++
    mainFunction (inputs ++ fragmentOutputs v f.result output call)

/-! ### The compute stage -/

/-- The wiring of a compute stage. -/
def computeMain (v : Version) (c : Context) (f : Function) : Except Error Code := do
  return mainFunction (Code.line ((← entryCall v c f) ++ ";"))

/-! ## The language -/

/-- The entry point, and `main` behind it. -/
def entry (v : Version) (fixup : Fixup) (c : Context) (f : Function) : Except Error Code := do
  let function ← (dialect v).function c f
  let main ←
    match c.stage with
    | .vertex => vertexMain v fixup c f
    | .fragment => fragmentMain v c f
    | .compute => computeMain v c f
  return function ++ main

/-- A version of GLSL, with the fixup that is asked for or its own. -/
def language (v : Version) (fixup : Option Fixup) : Language :=
  let fixup := fixup.getD v.defaultFixup
  { dialect := dialect v
    capabilities := v.capabilities
    fixup := some fixup
    header := header v
    struct := fun _ => struct v
    resource := resource v
    entry := entry v fixup
    arrangement := Language.inOrder (dialect v) (resource v) (entry v fixup) }

end Shading.Glsl
