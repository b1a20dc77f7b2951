import Shading.Named

/-!
# Intrinsics

The closed set of builtin functions that shader code may call on every target.
An intrinsic is called by its name and takes a fixed number of arguments.
-/

namespace Shading

/-- A builtin function. -/
inductive Intrinsic where
  | abs
  | acos
  | asin
  | atan
  | atan2
  | ceiling
  | clamp
  | cos
  | cosh
  | exp
  | exp2
  | floor
  | frac
  | lerp
  | log
  | log2
  | max
  | min
  | pow
  | round
  | rsqrt
  | saturate
  | sign
  | sin
  | sinh
  | smoothStep
  | sqrt
  | step
  | tan
  | tanh
  | truncate
  | dot
  | cross
  | distance
  | length
  | normalize
  | reflect
  | transpose
  | ddx
  | ddy
  | fwidth
  /-- Samples a texture through a sampler at coordinates. -/
  | sample
  /-- Samples a texture through a sampler at coordinates and a level of detail. -/
  | sampleLevel
  /-- Reads one sample of a multisample texture at coordinates. -/
  | load
  /-- Waits for the thread group, memory included. -/
  | barrier
deriving DecidableEq, Repr

namespace Intrinsic

def name : Intrinsic → String
  | .abs => "Abs"
  | .acos => "Acos"
  | .asin => "Asin"
  | .atan => "Atan"
  | .atan2 => "Atan2"
  | .ceiling => "Ceiling"
  | .clamp => "Clamp"
  | .cos => "Cos"
  | .cosh => "Cosh"
  | .exp => "Exp"
  | .exp2 => "Exp2"
  | .floor => "Floor"
  | .frac => "Frac"
  | .lerp => "Lerp"
  | .log => "Log"
  | .log2 => "Log2"
  | .max => "Max"
  | .min => "Min"
  | .pow => "Pow"
  | .round => "Round"
  | .rsqrt => "Rsqrt"
  | .saturate => "Saturate"
  | .sign => "Sign"
  | .sin => "Sin"
  | .sinh => "Sinh"
  | .smoothStep => "SmoothStep"
  | .sqrt => "Sqrt"
  | .step => "Step"
  | .tan => "Tan"
  | .tanh => "Tanh"
  | .truncate => "Truncate"
  | .dot => "Dot"
  | .cross => "Cross"
  | .distance => "Distance"
  | .length => "Length"
  | .normalize => "Normalize"
  | .reflect => "Reflect"
  | .transpose => "Transpose"
  | .ddx => "Ddx"
  | .ddy => "Ddy"
  | .fwidth => "Fwidth"
  | .sample => "Sample"
  | .sampleLevel => "SampleLevel"
  | .load => "Load"
  | .barrier => "Barrier"

instance : ToString Intrinsic := ⟨name⟩

instance : Named Intrinsic where
  values := [.abs, .acos, .asin, .atan, .atan2, .ceiling, .clamp, .cos, .cosh, .exp, .exp2,
    .floor, .frac, .lerp, .log, .log2, .max, .min, .pow, .round, .rsqrt, .saturate, .sign, .sin,
    .sinh, .smoothStep, .sqrt, .step, .tan, .tanh, .truncate, .dot, .cross, .distance, .length,
    .normalize, .reflect, .transpose, .ddx, .ddy, .fwidth, .sample, .sampleLevel, .load, .barrier]
  name := name

/-- The number of arguments a call gives. -/
def arity : Intrinsic → Nat
  | .barrier => 0
  | .atan2 | .max | .min | .pow | .step | .dot | .cross | .distance | .reflect => 2
  | .clamp | .lerp | .smoothStep | .sample | .load => 3
  | .sampleLevel => 4
  | _ => 1

/-- The intrinsics that take a texture. -/
def isTextureOperation : Intrinsic → Bool
  | .sample | .sampleLevel | .load => true
  | _ => false

/-- The intrinsics that compare neighbouring pixels. -/
def isDerivative : Intrinsic → Bool
  | .ddx | .ddy | .fwidth => true
  | _ => false

/-- The name of an intrinsic that every target spells alike. -/
def commonName? : Intrinsic → Option String
  | .abs => some "abs"
  | .acos => some "acos"
  | .asin => some "asin"
  | .atan => some "atan"
  | .ceiling => some "ceil"
  | .clamp => some "clamp"
  | .cos => some "cos"
  | .cosh => some "cosh"
  | .exp => some "exp"
  | .exp2 => some "exp2"
  | .floor => some "floor"
  | .log => some "log"
  | .log2 => some "log2"
  | .max => some "max"
  | .min => some "min"
  | .pow => some "pow"
  | .round => some "round"
  | .sign => some "sign"
  | .sin => some "sin"
  | .sinh => some "sinh"
  | .smoothStep => some "smoothstep"
  | .sqrt => some "sqrt"
  | .step => some "step"
  | .tan => some "tan"
  | .tanh => some "tanh"
  | .truncate => some "trunc"
  | .dot => some "dot"
  | .cross => some "cross"
  | .distance => some "distance"
  | .length => some "length"
  | .normalize => some "normalize"
  | .reflect => some "reflect"
  | .transpose => some "transpose"
  | .fwidth => some "fwidth"
  | _ => none

end Intrinsic

end Shading
