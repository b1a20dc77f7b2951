import Shading.Target.Language

/-!
# HLSL

The language of Direct3D 11 and later.  Matrices are stored with their rows
first, so every matrix in the source is the transpose of what the other targets
hold, and products through matrices have their operands swapped.

Resources get registers.  A register has a class and an index, and the index
counts the resources of the class before it in the model, so a resource has the
same register in every stage.  Fields of interface structs get semantics, which
are numbered for each kind.
-/

namespace Shading.Hlsl

/-- The words that are no names. -/
def reserved : List String := [
  "AppendStructuredBuffer", "BlendState", "Buffer", "ByteAddressBuffer", "ConsumeStructuredBuffer",
  "RWBuffer", "RWStructuredBuffer", "RWTexture2D", "SamplerState", "StructuredBuffer", "Texture2D",
  "Texture2DArray", "Texture2DMS", "TextureCube", "asm", "bool", "break", "case", "cbuffer",
  "centroid", "class", "column_major", "compile", "const", "continue", "default", "discard", "do",
  "double", "else", "export", "extern", "false", "float", "for", "groupshared", "half", "if", "in",
  "inline", "inout", "int", "interface", "line", "linear", "matrix", "namespace", "nointerpolation",
  "noperspective", "out", "packoffset", "pass", "point", "precise", "register", "return",
  "row_major", "sample", "sampler", "shared", "snorm", "static", "string", "struct", "switch",
  "tbuffer", "technique", "texture", "true", "typedef", "uint", "uniform", "unorm", "unsigned",
  "vector", "void", "volatile", "while"]

/-! ## Types -/

/-- The spelling of a resource type that has no elements. -/
def textureName? : ResourceKind → Option String
  | .texture2D => some "Texture2D<float4>"
  | .texture2DArray => some "Texture2DArray<float4>"
  | .textureCube => some "TextureCube<float4>"
  | .texture2DMS => some "Texture2DMS<float4>"
  | .depthTexture2D => some "Texture2D<float>"
  | .sampler => some "SamplerState"
  | .uniformBuffer | .structuredBuffer => none

/-- The spelling of a buffer of elements. -/
def bufferName (kind : ResourceKind) (access : Access) (element : String) : String :=
  if kind = .uniformBuffer then element
  else
    match access with
    | .readOnly => "StructuredBuffer<" ++ element ++ ">"
    | .readWrite => "RWStructuredBuffer<" ++ element ++ ">"

/-- The spelling of a type. -/
def typeName : Ty → Except Error String
  | .void => .ok "void"
  | .scalar kind => .ok kind.text
  | .vector kind size => .ok (kind.text ++ toString size)
  | .matrix => .ok "float4x4"
  | .struct name => .ok (correctedName reserved (Name.mangle name))
  | .array element length => do
    return (← typeName element) ++ "[" ++ toString length ++ "]"
  | .resource kind access =>
    match textureName? kind with
    | some name => .ok name
    | none => .error (.unsupportedType .hlsl (.resource kind access))
  | .resourceOf kind element access =>
    match textureName? kind with
    | some name => .ok name
    | none => do return bufferName kind access (← typeName element)

/-! ## Semantics -/

/-- The kind of semantic that the fields without a semantic of their own share. -/
def numberedSemantic : Option Semantic → String
  | some .position => "POSITION"
  | some .normal => "NORMAL"
  | some .color => "COLOR"
  | some .tangent => "TANGENT"
  | _ => "TEXCOORD"

/-- A semantic that carries its own number, or needs none. -/
def fixedSemantic? : Option Semantic → Option String
  | some .systemPosition => some "SV_Position"
  | some (.colorTarget n) => some ("SV_Target" ++ toString n)
  | _ => none

/-- The semantics of fields, behind fields with the given numbered ones. -/
def semanticsFrom : (earlier : List String) → List Field → List String
  | _, [] => []
  | earlier, field :: rest =>
    match fixedSemantic? field.semantic with
    | some name => name :: semanticsFrom earlier rest
    | none =>
      let kind := numberedSemantic field.semantic
      (kind ++ toString (earlier.count kind)) :: semanticsFrom (kind :: earlier) rest

/-- The semantics of the fields of a struct. -/
def fieldSemantics (d : StructDef) : List String := semanticsFrom [] d.fields

/-- The semantic of a builtin parameter. -/
def builtinSemantic? : Semantic → Option String
  | .vertexIndex => some "SV_VertexID"
  | .instanceIndex => some "SV_InstanceID"
  | .dispatchThreadId => some "SV_DispatchThreadID"
  | .groupThreadId => some "SV_GroupThreadID"
  | .groupId => some "SV_GroupID"
  | _ => none

/-! ## Functions -/

/-- A parameter, with its semantic if it is a builtin. -/
def parameter (p : Parameter) : Except Error String := do
  let text ← parameterText reserved typeName p
  match p.semantic.bind builtinSemantic? with
  | some semantic => return text ++ " : " ++ semantic
  | none => return text

/-- The intrinsics that are not spelled as in all targets. -/
def ownIntrinsic? : Intrinsic → List Operand → Option String
  | .atan2, args => some (callText "atan2" args)
  | .frac, args => some (callText "frac" args)
  | .lerp, args => some (callText "lerp" args)
  | .rsqrt, args => some (callText "rsqrt" args)
  | .saturate, args => some (callText "saturate" args)
  | .ddx, args => some (callText "ddx" args)
  | .ddy, args => some (callText "ddy" args)
  | .sample, texture :: sampler :: coordinates :: _ =>
    some (texture.text ++ ".Sample(" ++ sampler.text ++ ", " ++ coordinates.text ++ ")")
  | .sampleLevel, texture :: sampler :: coordinates :: level :: _ =>
    some (texture.text ++ ".SampleLevel(" ++ sampler.text ++ ", " ++ coordinates.text ++ ", " ++
      level.text ++ ")")
  | .load, texture :: coordinates :: sample :: _ =>
    some (texture.text ++ ".Load(int2(" ++ coordinates.text ++ "), " ++ sample.text ++ ")")
  | .barrier, _ => some "GroupMemoryBarrierWithGroupSync()"
  | _, _ => none

/-- How function bodies are spelled. -/
def dialect : Dialect where
  target := .hlsl
  reserved := reserved
  typeName := typeName
  floatSuffix := "f"
  castText ty operand := "((" ++ ty ++ ")(" ++ operand ++ "))"
  callsMul := true
  parameter := parameter
  ownIntrinsic? := ownIntrinsic?

/-! ## Registers -/

/-- A class of registers. -/
inductive RegisterClass where
  /-- Uniform buffers. -/
  | b
  /-- Textures and structured buffers that are read. -/
  | t
  /-- Samplers. -/
  | s
  /-- Structured buffers that are written. -/
  | u
deriving DecidableEq, Repr

def RegisterClass.text : RegisterClass → String
  | .b => "b"
  | .t => "t"
  | .s => "s"
  | .u => "u"

/-- The register class of a resource. -/
def registerClass (b : Binding) : RegisterClass :=
  match b.ty.kind, b.ty.access with
  | .uniformBuffer, _ => .b
  | .sampler, _ => .s
  | .structuredBuffer, .readWrite => .u
  | _, _ => .t

/-- The register index of a resource: the resources of its class before it. -/
def registerIndex (m : Model) (b : Binding) : Nat :=
  ((m.resources.takeWhile (·.name != b.name)).filter
    fun earlier => registerClass earlier = registerClass b).length

/-- The register of a resource. -/
def registerText (m : Model) (b : Binding) : String :=
  "register(" ++ (registerClass b).text ++ toString (registerIndex m b) ++ ")"

/-! ## Declarations -/

/-- The start of a source. -/
def header : Code := Code.line "#pragma pack_matrix(row_major)" ++ Code.blank

/-- A field, with its semantic if the struct crosses a stage boundary. -/
def fieldLine (isInterface : Bool) (field : Field) (semantic : String) : Except Error Code := do
  let declaration ← dialect.declaration field.ty (dialect.identifier field.name)
  return Code.line (if isInterface then declaration ++ " : " ++ semantic ++ ";" else declaration ++ ";")

/-- The definition of a struct. -/
def struct (c : Context) (d : StructDef) : Except Error Code := do
  let isInterface := !(c.model.roles d.name).isEmpty
  let fields ← Language.collect (fun (field, semantic) => fieldLine isInterface field semantic)
    (d.fields.zip (fieldSemantics d))
  return Code.line ("struct " ++ dialect.globalName d.name) ++ Code.block fields ";" ++ Code.blank

/-- The declaration of a resource.  A uniform buffer is a variable in a block. -/
def resource (c : Context) (b : Binding) : Except Error Code := do
  let name := dialect.identifier b.name
  let ty ← typeName b.ty.toTy
  let register := registerText c.model b
  if b.ty.kind = .uniformBuffer then
    return Code.line ("cbuffer " ++ Name.mangle b.name ++ "Buffer : " ++ register) ++
      Code.block (Code.line (ty ++ " " ++ name ++ ";")) ";" ++ Code.blank
  else
    return Code.line (ty ++ " " ++ name ++ " : " ++ register ++ ";") ++ Code.blank

/-- The semantic of a result that is not a struct. -/
def resultSemantic (stage : Stage) (result : Ty) : String :=
  if result = .float4 then
    match stage with
    | .vertex => " : SV_Position"
    | .fragment => " : SV_Target"
    | .compute => ""
  else ""

/-- The thread group of a compute entry. -/
def groupLine (stage : Stage) (size : Option GroupSize) : Code :=
  match stage, size with
  | .compute, some size => Code.line ("[numthreads" ++ toString size ++ "]")
  | _, _ => []

/-- The entry point.  It needs no glue. -/
def entry (c : Context) (f : Function) : Except Error Code := do
  let function ← dialect.functionWith c f (resultSemantic c.stage f.result)
  return groupLine c.stage f.groupSize ++ function

/-- HLSL. -/
def language : Language where
  dialect := dialect
  capabilities :=
    [.vertex, .fragment, .compute, .structuredBuffers, .multisampleTextures, .separateSamplers]
  fixup := none
  header _ := header
  struct := struct
  resource := resource
  entry := entry
  arrangement := Language.inOrder dialect resource entry

/-! ## The graphics subset -/

/-- Function bodies without the conventions for matrices, casts and builtins. -/
def plainDialect : Dialect where
  target := .hlsl
  reserved := reserved
  typeName := typeName
  floatSuffix := "f"
  castText ty operand := ty ++ "(" ++ operand ++ ")"
  callsMul := false
  parameter := parameterText reserved typeName
  ownIntrinsic? := ownIntrinsic?

/-- A subset for graphics stages.  Helpers are written in the plain dialect, and the
entry point as in HLSL. -/
def graphicsOnly : Language where
  dialect := plainDialect
  capabilities := [.vertex, .fragment]
  fixup := none
  header _ := header
  struct := struct
  resource := resource
  entry := entry
  arrangement := Language.inOrder plainDialect resource entry

end Shading.Hlsl
