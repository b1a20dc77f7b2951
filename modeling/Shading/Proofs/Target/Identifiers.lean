import Shading.Proofs.Target.Scopes

/-!
# Identifiers

A target writes a name of a program as an *identifier*: as it is, and a reserved word with
an underscore behind it.  No identifier is reserved, and two names have the same identifier
only when one of them is the correction of the other.

Types that a program does not declare have spellings of their own (`Ty.isNative`).  None of
them ends with an underscore, so no correction runs into one.  A name that is such a spelling
to begin with is corrected when the spelling is reserved, and `Target.reserves` says for which
types it is.
-/

namespace Shading

/-! ## Types with spellings of their own -/

/-- Scalars, vectors, the matrix, textures and samplers. -/
def Ty.isNative : Ty → Bool
  | .scalar _ | .vector _ _ | .matrix => true
  | ty => ty.resourceKind?.any (!·.isBuffer)

/-- Textures of all kinds. -/
def Ty.isTexture (ty : Ty) : Bool :=
  ty.resourceKind?.any fun kind => !kind.isBuffer && kind ≠ .sampler

namespace Target

/-- The versions of GLSL. -/
def isGlsl : Target → Bool
  | .glsl330 | .glslEs300 | .glsl450 => true
  | .hlsl | .metal => false

/-- The resources whose type is spelled as a reserved word.  Where a texture is declared with
its sampler, the plain texture is. -/
def reservesKind (t : Target) : ResourceKind → Bool
  | .sampler => true
  | .texture2D | .depthTexture2D => t = .glsl330 || t = .glslEs300
  | _ => false

/-- The types whose spelling is a reserved word. -/
def reserves (t : Target) : Ty → Bool
  | .scalar _ => true
  | .vector _ size => t.isGlsl && 2 ≤ size && size ≤ 4
  | .matrix => t.isGlsl
  | ty => ty.resourceKind?.any t.reservesKind

/-- What is so of the spelling of a texture or a sampler. -/
structure SpellsKind (t : Target) (words : List String) (kind : ResourceKind) (text : String) :
    Prop where
  last_ne : text.toList.getLast? ≠ some '_'
  mem_reserved : t.reservesKind kind = true → text ∈ words
  /-- The textures of HLSL and Metal say what they hold. -/
  bracket_mem : t.isGlsl = false → kind ≠ .sampler → '<' ∈ text.toList

/-- What is so of the spelling of a type that is native. -/
structure Spells (t : Target) (words : List String) (ty : Ty) (text : String) : Prop where
  ne_corrected : ∀ word, text ≠ word ++ "_"
  mem_reserved : t.reserves ty = true → text ∈ words
  bracket_mem : t.isGlsl = false → ty.isTexture = true → '<' ∈ text.toList

end Target

namespace Ty

variable {ty : Ty}

theorem isNative_of_isTexture (h : ty.isTexture = true) : ty.isNative = true := by
  cases ty <;> simp_all [isTexture, isNative, resourceKind?, resource?]

theorem isNative_of_reserves {t : Target} (h : t.reserves ty = true) : ty.isNative = true := by
  cases ty with
  | resource kind access | resourceOf kind element access =>
    cases kind <;> first | rfl | cases h
  | void | struct | array => cases h
  | _ => rfl

end Ty

theorem ne_corrected_of_getLast? {text : String} (h : text.toList.getLast? ≠ some '_')
    (word : String) : text ≠ word ++ "_" := by
  rintro rfl
  simp at h

theorem Target.SpellsKind.spells {t : Target} {words : List String} {kind : ResourceKind}
    {text : String} {ty : Ty} (h : t.SpellsKind words kind text)
    (hkind : ty.resourceKind? = some kind) : t.Spells words ty text where
  ne_corrected := ne_corrected_of_getLast? h.last_ne
  mem_reserved := by
    intro hreserves
    refine h.mem_reserved ?_
    cases ty <;> simp_all [Target.reserves, Ty.resourceKind?, Ty.resource?]
  bracket_mem := by
    intro hglsl htexture
    refine h.bracket_mem hglsl ?_
    simp_all [Ty.isTexture]

/-- How a dialect spells the native types, kind by kind. -/
structure Dialect.SpellsNative (d : Dialect) (t : Target) : Prop where
  scalar : ∀ kind : ScalarKind, d.typeName (.scalar kind) = .ok kind.text ∧ kind.text ∈ d.reserved
  /-- A vector is spelled with its size behind. -/
  vector : ∀ kind size, ∃ stem, d.typeName (.vector kind size) = .ok (stem ++ toString size) ∧
    (t.isGlsl = true → 2 ≤ size → size ≤ 4 → stem ++ toString size ∈ d.reserved)
  matrix : ∃ name, d.typeName .matrix = .ok name ∧ name.toList.getLast? ≠ some '_' ∧
    (t.isGlsl = true → name ∈ d.reserved)
  resource : ∀ ty kind text, ty.resourceKind? = some kind → kind.isBuffer = false →
    d.typeName ty = .ok text → t.SpellsKind d.reserved kind text

namespace Dialect

variable {d : Dialect} {t : Target} {ty : Ty} {text : String}

theorem SpellsNative.spells (h : d.SpellsNative t) (hnative : ty.isNative = true)
    (htext : d.typeName ty = .ok text) : t.Spells d.reserved ty text := by
  cases ty with
  | void | struct | array => cases hnative
  | scalar kind =>
    obtain ⟨hname, hmem⟩ := h.scalar kind
    cases hname.symm.trans htext
    refine ⟨ne_corrected_of_getLast? ?_, fun _ => hmem, nofun⟩
    cases kind <;> decide
  | vector kind size =>
    obtain ⟨stem, hname, hmem⟩ := h.vector kind size
    cases hname.symm.trans htext
    refine ⟨fun word => Name.numbered_ne_corrected stem word size.toNat, ?_, nofun⟩
    intro hreserves
    simp only [Target.reserves, Bool.and_eq_true, decide_eq_true_eq] at hreserves
    exact hmem hreserves.1.1 hreserves.1.2 hreserves.2
  | matrix =>
    obtain ⟨name, hname, hlast, hmem⟩ := h.matrix
    cases hname.symm.trans htext
    exact ⟨ne_corrected_of_getLast? hlast, hmem, nofun⟩
  | resource kind access =>
    exact (h.resource _ kind _ rfl (Bool.not_eq_true' _ ▸ hnative) htext).spells rfl
  | resourceOf kind element access =>
    exact (h.resource _ kind _ rfl (Bool.not_eq_true' _ ▸ hnative) htext).spells rfl

/-! ## Identifiers -/

/-- Identifiers are no reserved words, they merge only by corrections, and they keep clear of
the spellings of types that are reserved. -/
structure RenamesSafely (d : Dialect) (t : Target) : Prop where
  merges_iff : ∀ a b, d.identifier a = d.identifier b ↔
    a = b ∨ (a ∈ d.reserved ∧ b = a ++ "_") ∨ (b ∈ d.reserved ∧ a = b ++ "_")
  notMem_reserved : ∀ a, d.identifier a ∉ d.reserved
  /-- Only a name that is the spelling of a type already is written as one. -/
  eq_of_typeName : ∀ a ty text, ty.isNative = true → d.typeName ty = .ok text →
    d.identifier a = text → a = text ∧ text ∉ d.reserved
  /-- No name is written as the spelling of a type that is reserved. -/
  ne_typeName : ∀ a ty text, t.reserves ty = true → d.typeName ty = .ok text →
    d.identifier a ≠ text
  /-- Nor is a name without brackets as that of a texture in HLSL or Metal. -/
  ne_texture : t.isGlsl = false → ∀ a ty text, ty.isTexture = true → d.typeName ty = .ok text →
    '<' ∉ a.toList → d.identifier a ≠ text

theorem RenamesSafely.of_native (hreserved : ∀ word ∈ d.reserved, word ++ "_" ∉ d.reserved)
    (h : d.SpellsNative t) : d.RenamesSafely t := by
  have hnotMem : ∀ a, d.identifier a ∉ d.reserved := by
    intro a
    rw [identifier, correctedName]
    split
    · next ha => exact hreserved a ha
    · next ha => exact ha
  have heq : ∀ a ty text, ty.isNative = true → d.typeName ty = .ok text →
      d.identifier a = text → a = text ∧ text ∉ d.reserved := by
    intro a ty text hnative htext ha
    rcases correctedName_eq_iff.1 ha with ⟨hmem, rfl⟩ | ⟨-, hcorrected⟩
    · exact ⟨rfl, hmem⟩
    · exact absurd hcorrected ((h.spells hnative htext).ne_corrected a)
  refine ⟨fun a b => correctedName_eq_correctedName_iff hreserved, hnotMem, heq, ?_, ?_⟩
  · intro a ty text hreserves htext ha
    have hnative := Ty.isNative_of_reserves hreserves
    exact hnotMem a (ha ▸ (h.spells hnative htext).mem_reserved hreserves)
  · intro hglsl a ty text htexture htext hbracket ha
    have hnative := Ty.isNative_of_isTexture htexture
    obtain ⟨rfl, -⟩ := heq a ty text hnative htext ha
    exact hbracket ((h.spells hnative htext).bracket_mem hglsl htexture)

end Dialect

/-! ## Spellings of the targets -/

section SpellsNative

variable {ty : Ty} {kind : ResourceKind} {text : String}

theorem Hlsl.textureName?_of_typeName (hkind : ty.resourceKind? = some kind)
    (hbuffer : kind.isBuffer = false) (h : Hlsl.typeName ty = .ok text) :
    Hlsl.textureName? kind = some text := by
  obtain ⟨name, hname⟩ : ∃ name, Hlsl.textureName? kind = some name := by
    cases kind <;> first | exact ⟨_, rfl⟩ | cases hbuffer
  cases ty <;> cases hkind <;> simp_all [Hlsl.typeName]

theorem Hlsl.spellsNative : Hlsl.dialect.SpellsNative .hlsl where
  scalar kind := by cases kind <;> exact ⟨rfl, by decide⟩
  vector kind size := ⟨kind.text, rfl, nofun⟩
  matrix := ⟨"float4x4", rfl, by decide, nofun⟩
  resource := by
    intro ty kind text hkind hbuffer h
    have hname := Hlsl.textureName?_of_typeName hkind hbuffer h
    cases kind <;> cases hname <;> exact ⟨by decide, by decide, by decide⟩

theorem Metal.textureName?_of_typeName (hkind : ty.resourceKind? = some kind)
    (hbuffer : kind.isBuffer = false) (h : Metal.typeName ty = .ok text) :
    Metal.textureName? kind = some text := by
  obtain ⟨name, hname⟩ : ∃ name, Metal.textureName? kind = some name := by
    cases kind <;> first | exact ⟨_, rfl⟩ | cases hbuffer
  cases ty <;> cases hkind <;> simp_all [Metal.typeName]

theorem Metal.spellsNative : Metal.dialect.SpellsNative .metal where
  scalar kind := by cases kind <;> exact ⟨rfl, by decide⟩
  vector kind size := ⟨kind.text, rfl, nofun⟩
  matrix := ⟨"float4x4", rfl, by decide, nofun⟩
  resource := by
    intro ty kind text hkind hbuffer h
    have hname := Metal.textureName?_of_typeName hkind hbuffer h
    cases kind <;> cases hname <;> exact ⟨by decide, by decide, by decide⟩

theorem Glsl.textureName?_of_typeName {v : Glsl.Version} (hkind : ty.resourceKind? = some kind)
    (hbuffer : kind.isBuffer = false) (h : Glsl.typeName v ty = .ok text) :
    v.textureName? kind = some text := by
  have hname : Glsl.typeName v ty = Glsl.resourceName v kind ty := by
    cases ty <;> cases hkind <;> simp [Glsl.typeName, hbuffer]
  rw [hname, Glsl.resourceName] at h
  split at h
  · next name hname =>
    cases h
    exact hname
  · cases h

/-- GLSL reserves the vectors of two to four components. -/
theorem Glsl.mem_reserved_vector (kind : ScalarKind) {size : UInt8} (hlow : 2 ≤ size)
    (hhigh : size ≤ 4) : Glsl.vectorMark kind ++ "vec" ++ toString size ∈ Glsl.reserved := by
  have hsize : size = 2 ∨ size = 3 ∨ size = 4 := by
    simp only [← UInt8.toNat_inj, UInt8.le_iff_toNat_le] at *
    simp only [UInt8.reduceToNat] at *
    omega
  rcases hsize with rfl | rfl | rfl <;> cases kind <;> decide

theorem Glsl.spellsNative {v : Glsl.Version}
    (h : ∀ kind text, v.textureName? kind = some text →
      v.target.SpellsKind Glsl.reserved kind text) :
    (Glsl.dialect v).SpellsNative v.target where
  scalar kind := ⟨rfl, show kind.text ∈ Glsl.reserved by cases kind <;> decide⟩
  vector kind size := ⟨_, rfl, fun _ => Glsl.mem_reserved_vector kind⟩
  matrix := ⟨"mat4", rfl, by decide, fun _ => show "mat4" ∈ Glsl.reserved by decide⟩
  resource := fun _ _ _ hkind hbuffer htext =>
    h _ _ (Glsl.textureName?_of_typeName hkind hbuffer htext)

theorem Glsl.spellsKind {v : Glsl.Version} (hv : v ∈ [Glsl.core330, Glsl.es300, Glsl.vulkan450])
    (h : v.textureName? kind = some text) : v.target.SpellsKind Glsl.reserved kind text := by
  simp only [List.mem_cons, List.not_mem_nil, or_false] at hv
  rcases hv with rfl | rfl | rfl <;> cases kind <;> cases h <;>
    exact ⟨by decide, by decide, by decide⟩

end SpellsNative

/-- Every target renames safely. -/
theorem Target.renamesSafely (t : Target) (fixup : Option Fixup) :
    (t.language fixup).dialect.RenamesSafely t := by
  refine Dialect.RenamesSafely.of_native (t.corrected_notMem_reserved fixup) ?_
  cases t with
  | hlsl => exact Hlsl.spellsNative
  | glsl330 => exact Glsl.spellsNative fun _ _ => Glsl.spellsKind (.head _)
  | glslEs300 => exact Glsl.spellsNative fun _ _ => Glsl.spellsKind (.tail _ (.head _))
  | glsl450 => exact Glsl.spellsNative fun _ _ => Glsl.spellsKind (.tail _ (.tail _ (.head _)))
  | metal => exact Metal.spellsNative

/-- Two names merge in every target.  In HLSL a name is written as the type that it is spelled
like. -/
theorem Target.float_merges :
    (∀ (t : Target) (fixup : Option Fixup), (t.language fixup).dialect.identifier "float" =
      (t.language fixup).dialect.identifier "float_") ∧
    Hlsl.dialect.identifier "float4" = "float4" ∧ Hlsl.dialect.typeName .float4 = .ok "float4" := by
  refine ⟨fun t fixup => ?_, by decide, rfl⟩
  have hfloat : "float" ∈ (t.language fixup).dialect.reserved := by
    have hglsl : "float" ∈ Glsl.reserved := by decide
    cases t with
    | hlsl => exact (by decide : "float" ∈ Hlsl.reserved)
    | metal => exact (by decide : "float" ∈ Metal.reserved)
    | glsl330 | glslEs300 | glsl450 => exact hglsl
  exact (correctedName_eq_correctedName_iff (t.corrected_notMem_reserved fixup)).2
    (.inr (.inl ⟨hfloat, by decide⟩))

end Shading
