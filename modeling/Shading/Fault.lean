import Shading.Binary32.Text
import Shading.Core.Basic
import Shading.Surface.Program
import Shading.Target.Basic

/-!
# Faults

A program is refused with an `Error`.  An error says what is at fault and, where
a construct or a signature is refused, why: the reasons are the constructors of
`ConstructFault` and `SignatureFault`.  Each type has one function `message`
that words it.
-/

namespace Shading

/-! ## Constructs -/

/-- A value whose type has to be a given one. -/
inductive Checked where
  | initializer
  | returnValue
  | assignedValue
deriving DecidableEq, Repr

def Checked.text : Checked → String
  | .initializer => "initializer"
  | .returnValue => "return value"
  | .assignedValue => "assigned value"

/-- Why a construct is refused. -/
inductive ConstructFault where
  -- Types.
  | vectorSize (size : UInt8)
  | matrixShape (rows columns : UInt8)
  | unknownStructType (name : String)
  | arrayElement (element : Ty)
  | emptyArray
  | hostType (name : String)
  | voidValue
  -- Declarations.
  | duplicateField (name : String)
  | structContainsItself
  | missingElement (kind : ResourceKind)
  | notWritableKind (kind : ResourceKind)
  | arrayParameter (name : String)
  | arrayResult
  -- Statements.
  | forInitializer
  | forIncrement
  | selectorType (found : Ty)
  | switchLabel
  | missingResult (expected : Ty)
  | hostConstruct (construct : String)
  | assignedRemainder (target value : Ty)
  | conditionType (found : Ty)
  | typeMismatch (what : Checked) (found expected : Ty)
  -- Expressions.
  | untyped
  | infiniteLiteral (value : Binary32)
  | remainder (lhs rhs : Ty)
  | conversion (source target : Ty)
  | indexType (found : Ty)
  | elementlessBuffer
  | notIndexable (ty : Ty)
  | noField (struct member : String)
  | invalidSwizzle (member : String) (ty : Ty)
  | invalidMatrixMember (member : String)
  | noMember (ty : Ty) (member : String)
  | notConstructible (ty : Ty)
  | notComponent (argument ty : Ty)
  | componentCount (ty : Ty) (expected given : Nat)
  -- Writes.
  | repeatedComponents
  | readOnly (name : String)
  | notAssignable
  -- Resources.
  | unknownResource (name : String)
  | misplacedResource (kind : ResourceKind) (name : String)
  -- Calls.
  | unknownFunction (name : String)
  | argumentCount (callee : String) (expected given : Nat)
  | resourceArgument (callee : String)
  | argumentType (position : Nat) (param callee : String) (found expected : Ty)
  | intrinsicResource (intrinsic : Intrinsic) (name : String)
  | notSampleable (intrinsic : Intrinsic)
  | notSampler (intrinsic : Intrinsic)
  | sampleCoordinates (intrinsic : Intrinsic) (size : UInt8) (found : Ty)
  | levelOfDetail
  | notMultisample
  | loadCoordinates (found : Ty)
  | loadSample
  -- Programs.
  | recursiveCall (callee : String)
  | recursiveStruct (name : String)
  | builtinOutsideEntry (param : String)
  | stageIntrinsic (intrinsic : Intrinsic) (stage : Stage)
  -- Targets.
  | forHeader
  | unknownStruct (name : String)
  | noBuiltin (semantic : Semantic)
  | stageNotSupported (target : Target) (stage : Stage)

def ConstructFault.message : ConstructFault → String
  | .vectorSize size => s!"vectors must have 2 to 4 components, found {size}"
  | .matrixShape rows columns => s!"only 4x4 matrices are supported, found {rows}x{columns}"
  | .unknownStructType name => s!"unknown struct type {name}"
  | .arrayElement element => s!"arrays of {element} are not supported"
  | .emptyArray => "arrays must not be empty"
  | .hostType name => s!"host type {name} has no shader equivalent"
  | .voidValue => "values cannot have type void"
  | .duplicateField name => s!"duplicate field {name}"
  | .structContainsItself => "struct contains itself"
  | .missingElement kind => s!"{kind} requires an element type"
  | .notWritableKind kind => s!"{kind} cannot be read-write"
  | .arrayParameter name => s!"parameter {name} cannot be an array"
  | .arrayResult => "functions cannot return arrays"
  | .forInitializer => "for initializers must be declarations or expressions"
  | .forIncrement => "for increments must be expressions"
  | .selectorType found => s!"switch selector must be an integer scalar, found {found}"
  | .switchLabel => "switch labels must be integer constants"
  | .missingResult expected => s!"missing return value of type {expected}"
  | .hostConstruct construct => s!"{construct} is not supported in shader code"
  | .assignedRemainder target value =>
    s!"`%=` requires integer operands, found {target} and {value}"
  | .conditionType found => s!"conditions must be bool, found {found}"
  | .typeMismatch what found expected => s!"{what.text} has type {found}, expected {expected}"
  | .untyped => "expression has no resolved type"
  | .infiniteLiteral value => s!"float literal {value.specialText} is not finite"
  | .remainder lhs rhs => s!"`%` requires integer operands, found {lhs} and {rhs}"
  | .conversion source target => s!"cannot convert {source} to {target}"
  | .indexType found => s!"indices must be integer scalars, found {found}"
  | .elementlessBuffer => "structured buffer has no element type"
  | .notIndexable ty => s!"values of type {ty} cannot be indexed"
  | .noField struct member => s!"{struct} has no field {member}"
  | .invalidSwizzle member ty => s!"invalid swizzle .{member} on {ty}"
  | .invalidMatrixMember member => s!"invalid matrix member {member}"
  | .noMember ty member => s!"values of type {ty} have no member {member}"
  | .notConstructible ty => s!"values of type {ty} cannot be constructed"
  | .notComponent argument ty => s!"{argument} cannot be a component of {ty}"
  | .componentCount ty expected given => s!"{ty} needs {expected} components, {given} given"
  | .repeatedComponents => "swizzles with repeated components cannot be assigned"
  | .readOnly name => s!"{name} is read-only"
  | .notAssignable => "expression is not assignable"
  | .unknownResource name => s!"unknown resource {name}"
  | .misplacedResource kind name =>
    let place :=
      if kind = .structuredBuffer then "indexed" else "passed to texture intrinsics"
    s!"{kind} {name} can only be {place}"
  | .unknownFunction name => s!"unknown function {name}"
  | .argumentCount callee expected given => s!"{callee} takes {expected} arguments, {given} given"
  | .resourceArgument callee => s!"resources cannot be passed to {callee}"
  | .argumentType position param callee found expected =>
    s!"argument {position} ({param}) of {callee} has type {found}, expected {expected}"
  | .intrinsicResource intrinsic name => s!"{intrinsic} cannot take {name} as an argument"
  | .notSampleable intrinsic => s!"{intrinsic} requires a sampleable texture"
  | .notSampler intrinsic => s!"{intrinsic} requires a sampler"
  | .sampleCoordinates intrinsic size found =>
    s!"{intrinsic} coordinates must be float{size}, found {found}"
  | .levelOfDetail => "SampleLevel level of detail must be float"
  | .notMultisample => "Load requires a multisample texture"
  | .loadCoordinates found => s!"Load coordinates must be integer pairs, found {found}"
  | .loadSample => "Load sample index must be an integer"
  | .recursiveCall callee => s!"recursive call to {callee}"
  | .recursiveStruct name => s!"struct {name} contains itself"
  | .builtinOutsideEntry param =>
    s!"parameter {param} cannot use a builtin semantic outside an entry point"
  | .stageIntrinsic intrinsic stage => s!"{intrinsic} is not available in {stage} stages"
  | .forHeader => "only declarations and expressions can appear in a for header"
  | .unknownStruct name => s!"unknown struct {name}"
  | .noBuiltin semantic => s!"{semantic} has no GLSL builtin"
  | .stageNotSupported target stage => s!"{target} cannot generate {stage} stages"

/-! ## Signatures -/

/-- A field that crosses from the vertex to the fragment stage. -/
structure VaryingText where
  /-- The struct the field belongs to. -/
  struct : String
  field : String
  semantic : Semantic
  ty : Ty

instance : ToString VaryingText := ⟨fun v => s!"{v.struct}.{v.field} ({v.semantic} {v.ty})"⟩

/-- Why the signature of an entry point is refused. -/
inductive SignatureFault where
  | unknownStruct (name : String)
  | interfaceField (struct field : String) (ty : Ty)
  | interfaceBuiltin (struct field : String) (semantic : Semantic)
  | notAnInput (param : String)
  | builtinStage (semantic : Semantic) (stage : Stage)
  | builtinType (semantic : Semantic) (param : String) (expected found : Ty)
  | secondInput
  | paramRole (param : String) (stage : Stage)
  | positionType (struct field : String) (ty : Ty)
  | noPosition (struct : String)
  | manyPositions (struct : String)
  | vertexTarget (struct field : String)
  | vertexResult (found : Ty)
  | repeatedTarget (struct : String) (target : UInt32)
  | missingTarget (struct field : String)
  | noTargets (struct : String)
  | fragmentResult (found : Ty)
  | computeResult
  | noGroupSize
  | emptyGroup (size : GroupSize)
  | inputAsOutput (struct : String)
  | varying (input : VaryingText) (location : Nat) (written : Option VaryingText)

/-- What a parameter of an entry point may be. -/
def Stage.paramRole : Stage → String
  | .vertex => "the input struct or a vertex builtin"
  | .fragment => "the input struct"
  | .compute => "a compute builtin"

def SignatureFault.message : SignatureFault → String
  | .unknownStruct name => s!"unknown struct {name}"
  | .interfaceField struct field ty =>
    s!"field {struct}.{field} has type {ty}, stage interface fields must be numeric scalars or vectors"
  | .interfaceBuiltin struct field semantic =>
    s!"field {struct}.{field} uses {semantic}, which is only valid on entry parameters"
  | .notAnInput param => s!"parameter {param} must be an input"
  | .builtinStage semantic stage => s!"{semantic} is not available to {stage} entries"
  | .builtinType semantic param expected found =>
    s!"{semantic} parameter {param} must be {expected}, found {found}"
  | .secondInput => "at most one input struct is allowed"
  | .paramRole param stage => s!"parameter {param} must be {stage.paramRole}"
  | .positionType struct field ty =>
    s!"system position {struct}.{field} is {ty}, only float4 positions are supported; " ++
      "widen it with float4(position, 1.0)"
  | .noPosition struct => s!"{struct} has no system position field"
  | .manyPositions struct => s!"{struct} has more than one system position field"
  | .vertexTarget struct field =>
    s!"vertex outputs cannot carry color targets, found {struct}.{field}"
  | .vertexResult found => s!"vertex entries must return float4 or an output struct, found {found}"
  | .repeatedTarget struct target => s!"{struct} writes color target {target} more than once"
  | .missingTarget struct field => s!"field {struct}.{field} must carry a color target"
  | .noTargets struct => s!"{struct} has no color targets"
  | .fragmentResult found =>
    s!"fragment entries must return void, float4 or an output struct, found {found}"
  | .computeResult => "compute entries must return void"
  | .noGroupSize => "compute entries require a thread group size"
  | .emptyGroup size => s!"thread group size {size} has an empty dimension"
  | .inputAsOutput struct => s!"{struct} is used both as vertex input and as a stage output"
  | .varying input location written =>
    let found := (written.map toString).getD "nothing"
    s!"input {input} is varying {location}, but the vertex stage writes {found} there"

/-! ## Errors -/

/-- An entry point that is not there. -/
inductive MissingEntry where
  /-- The program has no function of this name. -/
  | named (name : String)
  /-- A requested set names no entry point. -/
  | anyInSet (index : Nat)
  /-- A model has no entry point for the stage. -/
  | ofStage (stage : Stage)

def MissingEntry.text : MissingEntry → String
  | .named name => name
  | .anyInSet index => s!"any entry point in set {index}"
  | .ofStage stage => s!"{stage} entry point"

/-- Why a program or a request is refused. -/
inductive Error where
  | entryNotFound (entry : MissingEntry)
  /-- The function is there, but it is no entry point of the stage. -/
  | notAnEntry (name : String) (expected : Stage)
  /-- The signature of an entry point does not fit its stage. -/
  | signature (function : String) (stage : Stage) (fault : SignatureFault)
  /-- Two resources claim the same set and slot. -/
  | duplicateBinding (first second : String) (set slot : UInt32)
  /-- A construct in the named declaration has no counterpart. -/
  | construct (symbol : String) (fault : ConstructFault)
  /-- The target cannot spell the type. -/
  | unsupportedType (target : Target) (ty : Ty)
  /-- The intrinsic is unknown, or the target cannot call it. -/
  | unsupportedIntrinsic (target : Option Target) (name function : String)

def Error.message : Error → String
  | .entryNotFound entry => s!"Entry point {entry.text} was not found."
  | .notAnEntry name expected => s!"Function {name} is not a {expected} entry point."
  | .signature function stage fault =>
    s!"Invalid {stage} signature for {function}: {fault.message}."
  | .duplicateBinding first second set slot =>
    s!"Resources {first} and {second} are both bound to set {set}, slot {slot}."
  | .construct symbol fault => s!"Unsupported construct in {symbol}: {fault.message}."
  | .unsupportedType target ty => s!"{target} does not support type {ty}."
  | .unsupportedIntrinsic none name function => s!"Unsupported intrinsic {name} in {function}."
  | .unsupportedIntrinsic (some target) name function =>
    s!"Unsupported intrinsic {name} in {function} for {target}."

/-! ## Warnings -/

/-- Something a model is accepted with all the same. -/
inductive Warning where
  /-- A thread group has more invocations than most devices allow. -/
  | largeGroup (function : String) (size : GroupSize)
  /-- The size of a uniform buffer is not a multiple of 16. -/
  | uniformSize (name : String) (size : Nat)

/-- The thread group invocations that most devices allow. -/
def maxGroupInvocations : UInt64 := 1024

def Warning.message : Warning → String
  | .largeGroup function size =>
    s!"{function}: thread group size {size} has {size.invocations} invocations, " ++
      s!"more than most devices allow ({maxGroupInvocations})"
  | .uniformSize name size =>
    s!"uniform buffer {name} has size {size}, which is not a multiple of 16"

end Shading
