import Shading.Target.Language

/-!
# Metal

Metal has no global resources.  A *container* struct has the stage's resources as
members and all its functions as methods, the entry point included.  The stage
function takes the resources as arguments, makes a container from them, and
forwards to the entry point.

Arguments are bound by table: buffers, textures and samplers are counted apart,
over the resources of the stage.
-/

namespace Shading.Metal

/-- The words that are no names. -/
def reserved : List String := [
  "alignas", "alignof", "and", "asm", "auto", "bool", "break", "case", "catch", "char", "class",
  "const", "constant", "constexpr", "continue", "decltype", "default", "delete", "device", "do",
  "double", "else", "enum", "explicit", "export", "extern", "false", "float", "for", "fragment",
  "friend", "goto", "half", "if", "inline", "int", "kernel", "long", "main", "mutable",
  "namespace", "new", "noexcept", "not", "nullptr", "operator", "or", "private", "protected",
  "public", "register", "return", "sampler", "short", "signed", "sizeof", "static",
  "struct", "switch", "template", "texture", "this", "thread", "threadgroup", "throw", "true",
  "try", "typedef", "typename", "uint", "union", "unsigned", "using", "vertex", "virtual", "void",
  "volatile", "while", "xor"]

/-- The name of the container. -/
def container : String := "ShaderContainer"

/-! ## Types -/

/-- The spelling of a resource type that has no elements. -/
def textureName? : ResourceKind → Option String
  | .texture2D => some "texture2d<float>"
  | .texture2DArray => some "texture2d_array<float>"
  | .textureCube => some "texturecube<float>"
  | .texture2DMS => some "texture2d_ms<float>"
  | .depthTexture2D => some "depth2d<float>"
  | .sampler => some "sampler"
  | .uniformBuffer | .structuredBuffer => none

/-- The spelling of a type.  A buffer is spelled as its element. -/
def typeName : Ty → Except Error String
  | .void => .ok "void"
  | .scalar kind => .ok kind.text
  | .vector kind size => .ok (kind.text ++ toString size)
  | .matrix => .ok "float4x4"
  | .struct name => .ok (correctedName reserved (Name.mangle name))
  | .array element length => do
    return "array<" ++ (← typeName element) ++ ", " ++ toString length ++ ">"
  | .resource kind access =>
    match textureName? kind with
    | some name => .ok name
    | none => .error (.unsupportedType .metal (.resource kind access))
  | .resourceOf kind element _ =>
    match textureName? kind with
    | some name => .ok name
    | none => typeName element

/-! ## Functions -/

/-- A parameter.  One that is written is passed by reference. -/
def parameter (p : Parameter) : Except Error String := do
  let name := correctedName reserved p.name
  match p.passing with
  | .input => declarationText typeName p.ty name
  | .output | .inout => return "thread " ++ (← typeName p.ty) ++ "& " ++ name

/-- Texture coordinates.  The layer of an array texture is an argument of its own. -/
def coordinatesText (texture coordinates : Operand) : String :=
  if texture.ty.resourceKind? = some .texture2DArray then
    let base := parenthesized coordinates.text
    base ++ ".xy, uint(rint(" ++ base ++ ".z))"
  else coordinates.text

/-- The intrinsics that are not spelled as in all targets. -/
def ownIntrinsic? : Intrinsic → List Operand → Option String
  | .atan2, args => some (callText "atan2" args)
  | .frac, args => some (callText "fract" args)
  | .lerp, args => some (callText "mix" args)
  | .rsqrt, args => some (callText "rsqrt" args)
  | .saturate, args => some (callText "saturate" args)
  | .ddx, args => some (callText "dfdx" args)
  | .ddy, args => some (callText "dfdy" args)
  | .sample, [texture, sampler, coordinates] =>
    some (texture.text ++ ".sample(" ++ sampler.text ++ ", " ++
      coordinatesText texture coordinates ++ ")")
  | .sampleLevel, [texture, sampler, coordinates, level] =>
    some (texture.text ++ ".sample(" ++ sampler.text ++ ", " ++
      coordinatesText texture coordinates ++ ", level(" ++ level.text ++ "))")
  | .load, [texture, coordinates, sample] =>
    some (texture.text ++ ".read(uint2(" ++ coordinates.text ++ "), uint(" ++ sample.text ++ "))")
  | .barrier, _ => some "threadgroup_barrier(mem_flags::mem_threadgroup)"
  | _, _ => none

/-- How function bodies are spelled. -/
def dialect : Dialect where
  target := .metal
  reserved := reserved
  typeName := typeName
  floatSuffix := "f"
  castText ty operand := ty ++ "(" ++ operand ++ ")"
  callsMul := false
  parameter := parameter
  ownIntrinsic? := ownIntrinsic?

/-! ## Arguments -/

/-- A table that arguments are bound in. -/
inductive ArgumentTable where
  | buffer
  | texture
  | sampler
deriving DecidableEq, Repr

def ArgumentTable.text : ArgumentTable → String
  | .buffer => "buffer"
  | .texture => "texture"
  | .sampler => "sampler"

/-- The table of a resource. -/
def argumentTable (b : Binding) : ArgumentTable :=
  match b.ty.kind with
  | .uniformBuffer | .structuredBuffer => .buffer
  | .sampler => .sampler
  | _ => .texture

/-- The index of a resource in its table: the stage's resources of the table before it. -/
def argumentIndex (c : Context) (b : Binding) : Nat :=
  (((c.model.resourcesFor c.stage).takeWhile (·.name != b.name)).filter
    fun earlier => argumentTable earlier = argumentTable b).length

/-- The place a resource is bound at. -/
def argumentAttribute (c : Context) (b : Binding) : String :=
  "[[" ++ (argumentTable b).text ++ "(" ++ toString (argumentIndex c b) ++ ")]]"

/-- A variable for a resource. -/
def resourceDeclaration (b : Binding) (name : String) : Except Error String := do
  let ty ← typeName b.ty.toTy
  match b.ty.kind, b.ty.access with
  | .uniformBuffer, _ => return "constant " ++ ty ++ "& " ++ name
  | .structuredBuffer, .readOnly => return "const device " ++ ty ++ "* " ++ name
  | .structuredBuffer, .readWrite => return "device " ++ ty ++ "* " ++ name
  | _, _ => return ty ++ " " ++ name

/-- The attribute of a builtin parameter. -/
def builtinAttribute? : Semantic → Option String
  | .vertexIndex => some "[[vertex_id]]"
  | .instanceIndex => some "[[instance_id]]"
  | .dispatchThreadId => some "[[thread_position_in_grid]]"
  | .groupThreadId => some "[[thread_position_in_threadgroup]]"
  | .groupId => some "[[threadgroup_position_in_grid]]"
  | _ => none

/-! ## Declarations -/

/-- The start of a source: the library and the thread group of a compute stage. -/
def header (c : Context) : Code :=
  let group :=
    match c.stage, c.model.entryFunction? c.stage with
    | .compute, some f =>
      match f.groupSize with
      | some size =>
        Code.line ("constant uint3 " ++ f.name ++ "_ThreadGroupSize = uint3" ++ toString size ++
          ";") ++ Code.blank
      | none => []
    | _, _ => []
  Code.line "#include <metal_stdlib>" ++ Code.line "using namespace metal;" ++ Code.blank ++ group

/-- What a struct's parts between stages add to one of its fields. -/
def fieldAttributes (m : Model) (struct : String) (index : Nat) (field : Field) : String :=
  let isVarying := m.isVarying struct
  let flat := if isVarying && field.ty.isInteger then " [[flat]]" else ""
  (if m.hasRole struct .vertexInput then " [[attribute(" ++ toString index ++ ")]]" else "") ++
    match field.semantic with
    | some .systemPosition => if isVarying then " [[position]]" else flat
    | some (.colorTarget n) =>
      if m.hasRole struct .fragmentOutput then " [[color(" ++ toString n ++ ")]]" else flat
    | _ => flat

/-- A field of a struct. -/
def fieldLine (m : Model) (struct : String) (index : Nat) (field : Field) : Except Error Code := do
  let declaration ← dialect.declaration field.ty (dialect.identifier field.name)
  return Code.line (declaration ++ fieldAttributes m struct index field ++ ";")

/-- The definition of a struct. -/
def struct (c : Context) (d : StructDef) : Except Error Code := do
  let fields ← Language.collect (fun (field, index) => fieldLine c.model d.name index field)
    d.fields.zipIdx
  return Code.line ("struct " ++ dialect.globalName d.name) ++ Code.block fields ";" ++ Code.blank

/-- The container member of a resource. -/
def resource (_ : Context) (b : Binding) : Except Error Code := do
  return Code.line ((← resourceDeclaration b (dialect.identifier b.name)) ++ ";")

/-- The word for a stage function. -/
def stageWord : Stage → String
  | .vertex => "vertex"
  | .fragment => "fragment"
  | .compute => "kernel"

/-- A parameter of the stage function. -/
def stageParameter (p : Parameter) : Except Error String := do
  let declaration ← dialect.declaration p.ty (dialect.identifier p.name)
  return declaration ++ " " ++ (p.semantic.bind builtinAttribute?).getD "[[stage_in]]"

/-- A resource parameter of the stage function. -/
def resourceParameter (c : Context) (b : Binding) : Except Error String := do
  return (← resourceDeclaration b (dialect.identifier b.name)) ++ " " ++ argumentAttribute c b

/-- The stage function. -/
def entry (c : Context) (f : Function) : Except Error Code := do
  let resources := c.model.resourcesFor c.stage
  let params ← f.params.mapM stageParameter
  let resourceParams ← resources.mapM (resourceParameter c)
  let result ← typeName f.result
  let name := dialect.functionName c.model c.stage f
  let forward := container ++ "(" ++
    ", ".intercalate (resources.map fun b => dialect.identifier b.name) ++ ")." ++ name ++ "(" ++
    ", ".intercalate (f.params.map fun p => dialect.identifier p.name) ++ ");"
  return Code.line (stageWord c.stage ++ " " ++ result ++ " " ++ name ++ "(" ++
      ", ".intercalate (params ++ resourceParams) ++ ")") ++
    Code.block (Code.line (if f.result.isVoid then forward else "return " ++ forward)) ""

/-- The constructor of the container, which sets every member. -/
def containerConstructor (resources : List Binding) : Except Error Code := do
  if resources.isEmpty then return []
  else
    let name (b : Binding) := dialect.identifier b.name
    let params ← resources.mapM fun b => resourceDeclaration b (name b ++ "_param")
    let members := resources.map fun b => name b ++ "(" ++ name b ++ "_param)"
    return Code.blank ++ Code.line (container ++ "(" ++ ", ".intercalate params ++ ")") ++
      Code.line (": " ++ ", ".intercalate members) ++ Code.line "\x7b\x7d"

/-- The container, and the stage function behind it. -/
def arrangement (c : Context) (f : Function) : Except Error Code := do
  let resources := c.model.resourcesFor c.stage
  let members ← Language.collect (resource c) resources
  let constructor ← containerConstructor resources
  let functions ← Language.collect (dialect.function c) (c.model.functionsFor c.stage)
  let entry ← entry c f
  return Code.line ("struct " ++ container) ++
    Code.block (members ++ constructor ++ Code.blank ++ functions) ";" ++ Code.blank ++ entry

/-- Metal. -/
def language : Language where
  dialect := dialect
  capabilities :=
    [.vertex, .fragment, .compute, .structuredBuffers, .multisampleTextures, .separateSamplers,
      .explicitBindings]
  fixup := none
  header := header
  struct := struct
  resource := resource
  entry := entry
  arrangement := arrangement

end Shading.Metal
