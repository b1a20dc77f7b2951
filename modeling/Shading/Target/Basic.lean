import Shading.Stage

/-!
# Targets

A target is a shading language that source text is written in.  Targets differ
in what they can express (`Capability`) and in the clip space their vertex
stages write to, which a `Fixup` makes up for.
-/

namespace Shading

/-- A shading language. -/
inductive Target where
  | hlsl
  | glsl330
  | glslEs300
  | glsl450
  | metal
deriving DecidableEq, Repr

namespace Target

/-- Every target, in order. -/
def all : List Target := [.hlsl, .glsl330, .glslEs300, .glsl450, .metal]

instance : Named Target where
  values := all
  name
    | .hlsl => "Hlsl"
    | .glsl330 => "Glsl330"
    | .glslEs300 => "GlslEs300"
    | .glsl450 => "Glsl450"
    | .metal => "Metal"

/-- The target as it is spelled in messages. -/
def text : Target → String
  | .hlsl => "HLSL"
  | .glsl330 => "GLSL 330"
  | .glslEs300 => "GLSL ES 300"
  | .glsl450 => "GLSL 450"
  | .metal => "Metal"

instance : ToString Target := ⟨text⟩

/-- The position of a target in the order of all. -/
def rank : Target → Nat
  | .hlsl => 0
  | .glsl330 => 1
  | .glslEs300 => 2
  | .glsl450 => 3
  | .metal => 4

theorem rank_injective {a b : Target} (h : a.rank = b.rank) : a = b := by
  cases a <;> cases b <;> first | rfl | cases h

end Target

/-- Something a target can express. -/
inductive Capability where
  | vertex
  | fragment
  | compute
  | structuredBuffers
  | multisampleTextures
  /-- Samplers are bound apart from the textures they sample. -/
  | separateSamplers
  /-- Sets and slots appear in the source text. -/
  | explicitBindings
deriving DecidableEq, Repr

instance : Named Capability where
  values := [.vertex, .fragment, .compute, .structuredBuffers, .multisampleTextures,
    .separateSamplers, .explicitBindings]
  name
    | .vertex => "VERTEX"
    | .fragment => "FRAGMENT"
    | .compute => "COMPUTE"
    | .structuredBuffers => "STRUCTURED_BUFFERS"
    | .multisampleTextures => "MULTISAMPLE_TEXTURES"
    | .separateSamplers => "SEPARATE_SAMPLERS"
    | .explicitBindings => "EXPLICIT_BINDING_INDICES"

/-- The capability that a stage needs. -/
def Stage.capability : Stage → Capability
  | .vertex => .vertex
  | .fragment => .fragment
  | .compute => .compute

/-- What is done to the clip-space position a vertex stage writes. -/
structure Fixup where
  /-- Depth is moved from `[0, 1]` to `[-1, 1]`. -/
  depthRemap : Bool
  /-- The vertical axis is turned around. -/
  flipY : Bool
deriving DecidableEq, Repr

/-- A fixup from its flags: bit 0 for depth, bit 1 for the vertical axis. -/
def Fixup.ofBits (bits : Nat) : Fixup := ⟨bits % 2 = 1, bits / 2 % 2 = 1⟩

/-- The flags of a fixup. -/
def Fixup.bits (f : Fixup) : Nat := f.depthRemap.toNat + 2 * f.flipY.toNat

@[simp] theorem Fixup.ofBits_bits (f : Fixup) : Fixup.ofBits f.bits = f := by
  obtain ⟨d, y⟩ := f
  cases d <;> cases y <;> decide

end Shading
