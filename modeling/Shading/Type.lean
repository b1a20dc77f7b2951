import Shading.Named

/-!
# Types

`Ty` is the closed set of types a model can hold.  Matrices are always 4x4 of
`float`.  A struct is referred to by its qualified name.  A resource type is a
kind, an access mode and, for buffers, the type of its elements.

Sizes and lengths are machine words, as the hand-over format fixes them.
-/

namespace Shading

/-! ## Scalars -/

/-- The kind of a scalar component.  Numbers are 32 bits wide. -/
inductive ScalarKind where
  | bool
  | int
  | uint
  | float
deriving DecidableEq, Repr

/-- The kind as it is spelled in messages, and as every target spells it. -/
def ScalarKind.text : ScalarKind → String
  | .bool => "bool"
  | .int => "int"
  | .uint => "uint"
  | .float => "float"

instance : ToString ScalarKind := ⟨ScalarKind.text⟩

instance : Named ScalarKind where
  values := [.bool, .int, .uint, .float]
  name
    | .bool => "Bool"
    | .int => "Int"
    | .uint => "UInt"
    | .float => "Float"

/-- Signed and unsigned integers. -/
def ScalarKind.isInteger : ScalarKind → Bool
  | .int | .uint => true
  | _ => false

/-! ## Resources -/

/-- The kind of an externally bound resource. -/
inductive ResourceKind where
  | texture2D
  | texture2DArray
  | textureCube
  | texture2DMS
  | depthTexture2D
  | sampler
  | uniformBuffer
  | structuredBuffer
deriving DecidableEq, Repr

/-- The kind as it is spelled in messages. -/
def ResourceKind.text : ResourceKind → String
  | .texture2D => "texture2d"
  | .texture2DArray => "texture2d_array"
  | .textureCube => "texture_cube"
  | .texture2DMS => "texture2d_ms"
  | .depthTexture2D => "depth_texture2d"
  | .sampler => "sampler"
  | .uniformBuffer => "uniform_buffer"
  | .structuredBuffer => "structured_buffer"

instance : ToString ResourceKind := ⟨ResourceKind.text⟩

instance : Named ResourceKind where
  values := [.texture2D, .texture2DArray, .textureCube, .texture2DMS, .depthTexture2D,
    .sampler, .uniformBuffer, .structuredBuffer]
  name
    | .texture2D => "Texture2D"
    | .texture2DArray => "Texture2DArray"
    | .textureCube => "TextureCube"
    | .texture2DMS => "Texture2DMS"
    | .depthTexture2D => "DepthTexture2D"
    | .sampler => "Sampler"
    | .uniformBuffer => "UniformBuffer"
    | .structuredBuffer => "StructuredBuffer"

/-- Buffers have elements of a declared type. -/
def ResourceKind.isBuffer : ResourceKind → Bool
  | .uniformBuffer | .structuredBuffer => true
  | _ => false

/-- Whether shader code may write a resource. -/
inductive Access where
  | readOnly
  | readWrite
deriving DecidableEq, Repr

instance : Named Access where
  values := [.readOnly, .readWrite]
  name
    | .readOnly => "ReadOnly"
    | .readWrite => "ReadWrite"

/-! ## Types -/

/-- A fully resolved type. -/
inductive Ty where
  | void
  | scalar (kind : ScalarKind)
  | vector (kind : ScalarKind) (size : UInt8)
  /-- A 4x4 matrix of `float`. -/
  | matrix
  /-- A struct by its qualified name. -/
  | struct (name : String)
  | array (element : Ty) (length : UInt32)
  /-- A resource without an element type. -/
  | resource (kind : ResourceKind) (access : Access)
  /-- A resource with an element type. -/
  | resourceOf (kind : ResourceKind) (element : Ty) (access : Access)
deriving DecidableEq, Repr

/-- The type of a bound resource. -/
structure ResourceTy where
  /-- What is bound. -/
  kind : ResourceKind
  /-- The element type of a buffer. -/
  element : Option Ty
  /-- Whether shader code may write it. -/
  access : Access
deriving DecidableEq, Repr

/-- A resource type among the types. -/
def ResourceTy.toTy (r : ResourceTy) : Ty :=
  match r.element with
  | none => .resource r.kind r.access
  | some element => .resourceOf r.kind element r.access

/-- Only structured buffers bound for writing can be written. -/
def ResourceTy.isWritable (r : ResourceTy) : Bool :=
  r.kind = .structuredBuffer && r.access = .readWrite

namespace Ty

abbrev bool : Ty := .scalar .bool
abbrev int : Ty := .scalar .int
abbrev uint : Ty := .scalar .uint
abbrev float : Ty := .scalar .float
abbrev float4 : Ty := .vector .float 4

/-- The resource a type describes, if it describes one. -/
def resource? : Ty → Option ResourceTy
  | .resource kind access => some ⟨kind, none, access⟩
  | .resourceOf kind element access => some ⟨kind, some element, access⟩
  | _ => none

/-- The kind of the resource a type describes. -/
def resourceKind? (ty : Ty) : Option ResourceKind := ty.resource?.map (·.kind)

/-- Resource types. -/
def isResource (ty : Ty) : Bool := ty.resource?.isSome

/-- The component kind of a scalar, a vector or a matrix. -/
def scalarKind? : Ty → Option ScalarKind
  | .scalar kind | .vector kind _ => some kind
  | .matrix => some .float
  | _ => none

/-- Integer scalars and vectors. -/
def isInteger (ty : Ty) : Bool := ty.scalarKind?.any ScalarKind.isInteger

/-- `float` scalars and vectors, and matrices. -/
def isFloat (ty : Ty) : Bool := ty.scalarKind? = some .float

/-- Integer scalars. -/
def isIntegerScalar : Ty → Bool
  | .scalar kind => kind.isInteger
  | _ => false

/-- Integer vectors of two components. -/
def isIntegerPair : Ty → Bool
  | .vector kind size => kind.isInteger && size = 2
  | _ => false

def isScalar : Ty → Bool
  | .scalar _ => true
  | _ => false

def isMatrix : Ty → Bool
  | .matrix => true
  | _ => false

def isVoid : Ty → Bool
  | .void => true
  | _ => false

def isArray : Ty → Bool
  | .array _ _ => true
  | _ => false

/-- Scalars and vectors, the only types that cross a stage boundary. -/
def isInterface : Ty → Bool
  | .scalar _ | .vector _ _ => true
  | _ => false

/-- The struct a type names directly. -/
def structName? : Ty → Option String
  | .struct name => some name
  | _ => none

/-- The struct a type mentions: itself, its elements' or none. -/
def structs : Ty → List String
  | .struct name => [name]
  | .array element _ => element.structs
  | .resourceOf _ element _ => element.structs
  | _ => []

/-- The number of components a value gives to a constructor. -/
def components? : Ty → Option Nat
  | .scalar _ => some 1
  | .vector _ size => some size.toNat
  | _ => none

/-- The type as it is spelled in messages. -/
def text : Ty → String
  | .void => "void"
  | .scalar kind => kind.text
  | .vector kind size => kind.text ++ toString size
  | .matrix => "float4x4"
  | .struct name => name
  | .array element length => element.text ++ "[" ++ toString length ++ "]"
  | .resource kind access => kind.text ++ accessText access
  | .resourceOf kind element access => kind.text ++ "<" ++ element.text ++ ">" ++ accessText access
where
  /-- Only write access is spelled. -/
  accessText : Access → String
    | .readOnly => ""
    | .readWrite => " (read-write)"

instance : ToString Ty := ⟨Ty.text⟩

end Ty

@[simp] theorem ResourceTy.resource?_toTy (r : ResourceTy) : r.toTy.resource? = some r := by
  obtain ⟨kind, element, access⟩ := r
  cases element <;> rfl

/-- A type that describes a resource is that resource's type. -/
theorem Ty.toTy_of_resource? {ty : Ty} {r : ResourceTy} (h : ty.resource? = some r) :
    r.toTy = ty := by
  cases ty <;> simp [Ty.resource?] at h <;> subst h <;> rfl

end Shading
