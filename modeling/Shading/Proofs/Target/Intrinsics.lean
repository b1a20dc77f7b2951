import Shading.Proofs.Elaboration.Resources
import Shading.Proofs.Target.Emission
import Shading.Proofs.Target.Frames

/-!
# Arguments of intrinsics

Every target writes a call of an intrinsic as a frame with the texts of the arguments
inserted, whatever these are.  How often a frame inserts an argument decides how often
the argument takes effect, so it should be once (`Frame.Counts`).

Most intrinsics are calls of a function, with one place for each argument.  Texture
operations are put together by each target.  A target that has no samplers leaves out the
sampler, which is a resource and has no effect.  Metal takes the layer of an array texture
apart from its coordinates, and writes the coordinates once for each.
-/

namespace Shading

open Shading.Core (Expr)

/-! ## How often arguments are inserted -/

/-- A frame inserts the arguments of a call that are values as often as is said for each. -/
def Frame.Counts (frame : Frame) (tys : List Ty) (times : Nat → Nat) : Prop :=
  ∀ n ty, tys[n]? = some ty → ty.isResource = false → frame.parts.count n = times n

theorem Frame.counts_call (name : String) (tys : List Ty) :
    (Frame.call name tys.length).Counts tys fun _ => 1 := by
  intro n ty hn _
  rw [parts_call]
  rw [List.nodup_range.count, if_pos (List.mem_range.2 (List.getElem?_eq_some_iff.1 hn).1)]

/-- Behind resources, every argument counts. -/
theorem Frame.counts_of_resources {frame : Frame} {before rest : List Ty} {times : Nat → Nat}
    (first last : Nat) (hbefore : ∀ ty ∈ before, ty.isResource = true)
    (hfirst : before.length = first) (hlast : before.length + rest.length = last)
    (h : ∀ n < last, first ≤ n → frame.parts.count n = times n) :
    frame.Counts (before ++ rest) times := by
  subst hfirst hlast
  intro n ty hn hvalue
  refine h n (by simpa using (List.getElem?_eq_some_iff.1 hn).1) ?_
  by_contra hlt
  rw [List.getElem?_append_left (by omega)] at hn
  cases hvalue.symm.trans (hbefore ty (List.mem_of_getElem? hn))

namespace Ty.Samples

variable {texture sampler coordinates : Ty}

theorem isResource (h : texture.Samples sampler coordinates) :
    ∀ ty ∈ [texture, sampler], ty.isResource = true := by
  obtain ⟨kind, -, hkind, -⟩ := h.texture
  simp [isResource_of_resourceKind? hkind, isResource_of_resourceKind? h.sampler]

/-- A texture that is sampled is of one of four kinds. -/
theorem exists_kind (h : texture.Samples sampler coordinates) :
    ∃ kind, texture.resourceKind? = some kind ∧
      (kind = .texture2D ∨ kind = .depthTexture2D ∨ kind = .texture2DArray ∨
        kind = .textureCube) := by
  obtain ⟨kind, size, hkind, hsize, -⟩ := h.texture
  refine ⟨kind, hkind, ?_⟩
  cases kind <;> simp_all [Core.sampleDimension?]

end Ty.Samples

namespace Dialect

variable {d : Dialect} {i : Intrinsic} {tys : List Ty}

/-- A dialect writes calls of an intrinsic in a frame that inserts the arguments as often
as is said. -/
def SpellsTimes (d : Dialect) (i : Intrinsic) (tys : List Ty) (times : Nat → Nat) : Prop :=
  ∃ frame, d.Spells i tys frame ∧ frame.Counts tys times

/-- A function is called with all arguments. -/
theorem spellsTimes_call (hl : tys.length = i.arity)
    (h : ∃ name, Name.IsText name.toList ∧ ∀ symbol args, args.length = i.arity →
      d.intrinsic symbol i args = .ok (callText name args)) :
    d.SpellsTimes i tys fun _ => 1 := by
  obtain ⟨name, hname, hcall⟩ := h
  exact ⟨_, spells_call hname fun symbol args hargs => hcall symbol args (hargs.trans hl),
    Frame.counts_call name tys⟩

/-- A word is written, and no argument is given. -/
theorem spellsTimes_word {text : String} (hne : text.toList ≠ []) (hneat : Frame.Neat [.word text])
    (h : ∀ symbol, d.intrinsic symbol i [] = .ok text) {times : Nat → Nat} :
    d.SpellsTimes i [] times := by
  refine ⟨[.word text], ⟨fun symbol texts hl => ?_, hneat, .word hne⟩, fun n ty hn => ?_⟩
  · obtain rfl := List.length_eq_zero_iff.1 hl
    simpa [operandsOf, Piece.fill] using h symbol
  · simp at hn

end Dialect

/-! ## HLSL -/

namespace Hlsl

theorem exists_call {i : Intrinsic} (ht : i.isTextureOperation = false) (hb : i ≠ .barrier) :
    ∃ name, Name.IsText name.toList ∧ ∀ symbol args, args.length = i.arity →
      dialect.intrinsic symbol i args = .ok (callText name args) := by
  cases i <;> first
    | (refine ⟨_, ?_, fun _ _ _ => rfl⟩; decide)
    | exact absurd rfl hb
    | cases ht

/-- HLSL inserts every argument of an intrinsic once. -/
theorem spellsTimes {i : Intrinsic} {tys : List Ty} (h : i.Accepts tys) :
    dialect.SpellsTimes i tys fun _ => 1 := by
  cases h with
  | sample hs =>
    refine ⟨[.part 0, .word ".Sample(", .part 1, .word ", ", .part 2, .word ")"],
      ⟨fun symbol texts hl => ?_, by decide, .resource rfl (hs.isResource _ (.head _))⟩,
      Frame.counts_of_resources 2 3 hs.isResource rfl rfl (by decide)⟩
    obtain ⟨a, b, c, rfl⟩ := List.length_eq_three.1 hl
    simp [Dialect.intrinsic, dialect, ownIntrinsic?, operandsOf, Piece.fill, String.append_assoc]
  | sampleLevel hs =>
    refine ⟨[.part 0, .word ".SampleLevel(", .part 1, .word ", ", .part 2, .word ", ", .part 3,
        .word ")"],
      ⟨fun symbol texts hl => ?_, by decide, .resource rfl (hs.isResource _ (.head _))⟩,
      Frame.counts_of_resources 2 4 hs.isResource rfl rfl (by decide)⟩
    obtain ⟨a, rest, rfl⟩ := List.exists_cons_of_length_eq_add_one hl
    obtain ⟨b, c, e, rfl⟩ := List.length_eq_three.1 (Nat.succ.inj hl)
    simp [Dialect.intrinsic, dialect, ownIntrinsic?, operandsOf, Piece.fill, String.append_assoc]
  | @load texture coordinates sample ht =>
    have hresource := Ty.isResource_of_resourceKind? ht
    have hbefore : ∀ ty ∈ [texture], ty.isResource = true := by simpa using hresource
    refine ⟨[.part 0, .word ".Load(int2(", .part 1, .word "), ", .part 2, .word ")"],
      ⟨fun symbol texts hl => ?_, by decide, .resource rfl hresource⟩,
      Frame.counts_of_resources 1 3 hbefore rfl rfl (by decide)⟩
    obtain ⟨a, b, c, rfl⟩ := List.length_eq_three.1 hl
    simp [Dialect.intrinsic, dialect, ownIntrinsic?, operandsOf, Piece.fill, String.append_assoc]
  | values ht hl _ =>
    by_cases hb : i = .barrier
    · subst hb
      obtain rfl := List.length_eq_zero_iff.1 hl
      exact Dialect.spellsTimes_word (by decide) (by decide) fun _ => rfl
    · exact Dialect.spellsTimes_call hl (exists_call ht hb)

end Hlsl

/-! ## GLSL -/

namespace Glsl

variable {v : Version}

theorem exists_call {i : Intrinsic} (ht : i.isTextureOperation = false) (hb : i ≠ .barrier)
    (hs : i ≠ .saturate) : ∃ name, Name.IsText name.toList ∧ ∀ symbol args, args.length = i.arity →
      (dialect v).intrinsic symbol i args = .ok (callText name args) := by
  cases i <;> first
    | (refine ⟨_, ?_, fun _ _ _ => rfl⟩; decide)
    | exact absurd rfl hb
    | exact absurd rfl hs
    | cases ht

/-- What a version samples: a texture of a kind and a sampler, in a frame. -/
structure Version.Samples (v : Version) (kind : ResourceKind) (frame : Frame) : Prop where
  samplerText : ∀ texture sampler : Operand, texture.ty.resourceKind? = some kind → ∀ rest,
    v.samplerText texture sampler = frame.fill (texture.text :: sampler.text :: rest)
  neat : frame.Neat
  parts : ∀ n ∈ frame.parts, n < 2

theorem samples_core330 (kind : ResourceKind) : core330.Samples kind [.part 0] where
  samplerText _ _ _ _ := by simp [core330, Piece.fill]
  neat := by decide
  parts := by decide

theorem samples_es300 (kind : ResourceKind) : es300.Samples kind [.part 0] where
  samplerText _ _ _ _ := by simp [es300, core330, Piece.fill]
  neat := by decide
  parts := by decide

/-- What a texture of a kind and a sampler are combined to. -/
def combinedName : ResourceKind → String
  | .texture2DArray => "sampler2DArray"
  | .textureCube => "samplerCube"
  | _ => "sampler2D"

theorem samples_vulkan450 (kind : ResourceKind) : vulkan450.Samples kind
    [.word (combinedName kind), .word "(", .part 0, .word ", ", .part 1, .word ")"] where
  samplerText texture sampler hkind rest := by
    cases kind <;>
      simp [vulkan450, hkind, combinedName, Piece.fill, String.append_assoc]
  neat := by cases kind <;> decide
  parts := by simp [Frame.parts, Piece.part?, List.filterMap_cons]

theorem exists_samples (hv : v ∈ versions) (kind : ResourceKind) :
    ∃ frame, v.Samples kind frame := by
  simp only [versions, List.mem_cons, List.not_mem_nil, or_false] at hv
  rcases hv with rfl | rfl | rfl
  · exact ⟨_, samples_core330 kind⟩
  · exact ⟨_, samples_es300 kind⟩
  · exact ⟨_, samples_vulkan450 kind⟩

/-- The frame of a sampling: what is sampled, and the other arguments. -/
def sampleFrame (name : String) (kind : ResourceKind) (sampled arguments : Frame) : Frame :=
  [.word name] ++ .word "(" :: ((sampled ++ arguments) ++ [.word ")"]) ++
    if kind = .depthTexture2D then [.word ".r"] else []

theorem neat_sampleFrame {name : String} {kind : ResourceKind} {sampled arguments : Frame}
    (hname : Frame.Neat [.word name]) (hsampled : sampled.Neat) (harguments : arguments.Neat) :
    (sampleFrame name kind sampled arguments).Neat := by
  have hsuffix : Frame.Neat (if kind = .depthTexture2D then [.word ".r"] else []) := by
    split <;> decide
  exact (hname.append (hsampled.append harguments).enclose).append hsuffix

theorem count_sampleFrame {name : String} {kind : ResourceKind} {sampled arguments : Frame}
    (hsampled : ∀ n ∈ sampled.parts, n < 2) {n : Nat} (hn : 2 ≤ n) :
    (sampleFrame name kind sampled arguments).parts.count n = arguments.parts.count n := by
  have hnone : sampled.parts.count n = 0 :=
    List.count_eq_zero.2 fun h => absurd (hsampled n h) (by omega)
  have hsuffix : Frame.parts (if kind = .depthTexture2D then [.word ".r"] else []) = [] := by
    split <;> rfl
  simp only [Frame.parts] at hnone hsuffix
  simp [sampleFrame, Frame.parts, Piece.part?, List.filterMap_cons, hnone, hsuffix]

/-- GLSL inserts every argument of an intrinsic once that is a value. -/
theorem spellsTimes (hv : v ∈ versions) {i : Intrinsic} {tys : List Ty} (h : i.Accepts tys) :
    (dialect v).SpellsTimes i tys fun _ => 1 := by
  cases h with
  | @sample texture sampler coordinates hs =>
    obtain ⟨kind, hkind, -⟩ := hs.exists_kind
    obtain ⟨sampled, hsampled⟩ := exists_samples hv kind
    refine ⟨sampleFrame "texture" kind sampled [.word ", ", .part 2],
      ⟨fun symbol texts hl => ?_, neat_sampleFrame (by decide) hsampled.neat (by decide),
        .word (by decide)⟩,
      Frame.counts_of_resources 2 3 hs.isResource rfl rfl fun n hlast hn => ?_⟩
    · obtain ⟨a, b, c, rfl⟩ := List.length_eq_three.1 hl
      have hcombined := hsampled.samplerText ⟨a, texture⟩ ⟨b, sampler⟩ hkind [c]
      by_cases hdepth : kind = .depthTexture2D
      all_goals
        simp [Dialect.intrinsic, dialect, ownIntrinsic?, operandsOf, sampleText, hcombined, hkind,
          sampleFrame, Frame.fill_append, Piece.fill, hdepth, String.append_assoc]
        exact @String.append_assoc "texture" "(" _
    · rw [count_sampleFrame hsampled.parts hn]
      obtain rfl : n = 2 := by omega
      rfl
  | @sampleLevel texture sampler coordinates hs =>
    obtain ⟨kind, hkind, -⟩ := hs.exists_kind
    obtain ⟨sampled, hsampled⟩ := exists_samples hv kind
    refine ⟨sampleFrame "textureLod" kind sampled [.word ", ", .part 2, .word ", ", .part 3],
      ⟨fun symbol texts hl => ?_, neat_sampleFrame (by decide) hsampled.neat (by decide),
        .word (by decide)⟩,
      Frame.counts_of_resources 2 4 hs.isResource rfl rfl fun n hlast hn => ?_⟩
    · obtain ⟨a, rest, rfl⟩ := List.exists_cons_of_length_eq_add_one hl
      obtain ⟨b, c, e, rfl⟩ := List.length_eq_three.1 (Nat.succ.inj hl)
      have hcombined := hsampled.samplerText ⟨a, texture⟩ ⟨b, sampler⟩ hkind [c, e]
      by_cases hdepth : kind = .depthTexture2D
      all_goals
        simp [Dialect.intrinsic, dialect, ownIntrinsic?, operandsOf, sampleText, hcombined, hkind,
          sampleFrame, Frame.fill_append, Piece.fill, hdepth, String.append_assoc]
        exact @String.append_assoc "textureLod" "(" _
    · rw [count_sampleFrame hsampled.parts hn]
      obtain rfl | rfl : n = 2 ∨ n = 3 := by omega
      · rfl
      · rfl
  | @load texture coordinates sample ht =>
    have hbefore : ∀ ty ∈ [texture], ty.isResource = true := by
      simpa using Ty.isResource_of_resourceKind? ht
    refine ⟨[.word "texelFetch(", .part 0, .word ", ivec2(", .part 1, .word "), int(", .part 2,
        .word "))"],
      ⟨fun symbol texts hl => ?_, by decide, .word (by decide)⟩,
      Frame.counts_of_resources 1 3 hbefore rfl rfl (by decide)⟩
    obtain ⟨a, b, c, rfl⟩ := List.length_eq_three.1 hl
    simp [Dialect.intrinsic, dialect, ownIntrinsic?, operandsOf, Piece.fill, String.append_assoc]
  | values ht hl _ =>
    by_cases hb : i = .barrier
    · subst hb
      obtain rfl := List.length_eq_zero_iff.1 hl
      exact Dialect.spellsTimes_word (by decide) (by decide) fun _ => rfl
    · by_cases hs : i = .saturate
      · subst hs
        obtain ⟨ty, rfl⟩ := List.length_eq_one_iff.1 hl
        refine ⟨[.word "clamp(", .part 0, .word ", 0.0, 1.0)"],
          ⟨fun symbol texts hl => ?_, by decide, .word (by decide)⟩,
          Frame.counts_of_resources 0 1 (List.forall_mem_nil _) rfl rfl (by decide)⟩
        obtain ⟨a, rfl⟩ := List.length_eq_one_iff.1 hl
        simp [Dialect.intrinsic, dialect, ownIntrinsic?, operandsOf, Piece.fill,
          String.append_assoc]
      · exact Dialect.spellsTimes_call hl (exists_call ht hb hs)

end Glsl

/-! ## Metal -/

namespace Metal

theorem exists_call {i : Intrinsic} (ht : i.isTextureOperation = false) (hb : i ≠ .barrier) :
    ∃ name, Name.IsText name.toList ∧ ∀ symbol args, args.length = i.arity →
      dialect.intrinsic symbol i args = .ok (callText name args) := by
  cases i <;> first
    | (refine ⟨_, ?_, fun _ _ _ => rfl⟩; decide)
    | exact absurd rfl hb
    | cases ht

/-- Whether Metal takes the layer apart from the coordinates: an array texture is sampled. -/
def splitsLayer (i : Intrinsic) (tys : List Ty) : Bool :=
  (i = .sample || i = .sampleLevel) &&
    tys.head?.bind Ty.resourceKind? = some .texture2DArray

/-- How often an argument of an intrinsic is inserted. -/
def insertions (i : Intrinsic) (tys : List Ty) (n : Nat) : Nat :=
  if splitsLayer i tys = true ∧ n = 2 then 2 else 1

theorem insertions_of_not_splitsLayer {i : Intrinsic} {tys : List Ty}
    (h : splitsLayer i tys = false) : insertions i tys = fun _ => 1 := by
  funext n
  simp [insertions, h]

/-- Texture coordinates in a frame, the third of the arguments. -/
def coordinatesFrame (kind : ResourceKind) : Frame :=
  if kind = .texture2DArray then [.enclosed 2, .word ".xy, uint(rint(", .enclosed 2, .word ".z))"]
  else [.part 2]

theorem coordinatesText_eq {ty : Ty} {kind : ResourceKind} (a b : String)
    (hkind : ty.resourceKind? = some kind) (coordinates : Operand) (rest : List String) :
    coordinatesText ⟨a, ty⟩ coordinates =
      (coordinatesFrame kind).fill (a :: b :: coordinates.text :: rest) := by
  by_cases h : kind = .texture2DArray <;>
    simp [coordinatesText, coordinatesFrame, hkind, h, Piece.fill, String.append_assoc]

/-- Metal inserts every argument of an intrinsic once, and the coordinates of an array texture
twice. -/
theorem spellsTimes {i : Intrinsic} {tys : List Ty} (h : i.Accepts tys) :
    dialect.SpellsTimes i tys (insertions i tys) := by
  cases h with
  | @sample texture sampler coordinates hs =>
    obtain ⟨kind, hkind, -⟩ := hs.exists_kind
    refine ⟨[.part 0, .word ".sample(", .part 1, .word ", "] ++ coordinatesFrame kind ++
        [.word ")"],
      ⟨fun symbol texts hl => ?_, by cases kind <;> decide,
        .resource rfl (hs.isResource _ (.head _))⟩,
      Frame.counts_of_resources 2 3 hs.isResource rfl rfl fun n hlast hn => ?_⟩
    · obtain ⟨a, b, c, rfl⟩ := List.length_eq_three.1 hl
      have hcoordinates := coordinatesText_eq a b hkind ⟨c, coordinates⟩ []
      simp [Dialect.intrinsic, dialect, ownIntrinsic?, operandsOf, hcoordinates,
        Frame.fill_append, Piece.fill, String.append_assoc]
    · obtain rfl : n = 2 := by omega
      cases kind <;> simp [insertions, splitsLayer, hkind] <;> rfl
  | @sampleLevel texture sampler coordinates hs =>
    obtain ⟨kind, hkind, -⟩ := hs.exists_kind
    refine ⟨[.part 0, .word ".sample(", .part 1, .word ", "] ++ coordinatesFrame kind ++
        [.word ", level(", .part 3, .word "))"],
      ⟨fun symbol texts hl => ?_, by cases kind <;> decide,
        .resource rfl (hs.isResource _ (.head _))⟩,
      Frame.counts_of_resources 2 4 hs.isResource rfl rfl fun n hlast hn => ?_⟩
    · obtain ⟨a, rest, rfl⟩ := List.exists_cons_of_length_eq_add_one hl
      obtain ⟨b, c, e, rfl⟩ := List.length_eq_three.1 (Nat.succ.inj hl)
      have hcoordinates := coordinatesText_eq a b hkind ⟨c, coordinates⟩ [e]
      simp [Dialect.intrinsic, dialect, ownIntrinsic?, operandsOf, hcoordinates,
        Frame.fill_append, Piece.fill, String.append_assoc]
    · obtain rfl | rfl : n = 2 ∨ n = 3 := by omega
      · cases kind <;> simp [insertions, splitsLayer, hkind] <;> rfl
      · rw [insertions, if_neg (by simp)]
        cases kind <;> rfl
  | @load texture coordinates sample ht =>
    have hresource := Ty.isResource_of_resourceKind? ht
    have hbefore : ∀ ty ∈ [texture], ty.isResource = true := by simpa using hresource
    rw [insertions_of_not_splitsLayer rfl]
    refine ⟨[.part 0, .word ".read(uint2(", .part 1, .word "), uint(", .part 2, .word "))"],
      ⟨fun symbol texts hl => ?_, by decide, .resource rfl hresource⟩,
      Frame.counts_of_resources 1 3 hbefore rfl rfl (by decide)⟩
    obtain ⟨a, b, c, rfl⟩ := List.length_eq_three.1 hl
    simp [Dialect.intrinsic, dialect, ownIntrinsic?, operandsOf, Piece.fill, String.append_assoc]
  | values ht hl _ =>
    have hsplits : splitsLayer i tys = false := by
      cases i <;> first | rfl | cases ht
    rw [insertions_of_not_splitsLayer hsplits]
    by_cases hb : i = .barrier
    · subst hb
      obtain rfl := List.length_eq_zero_iff.1 hl
      exact Dialect.spellsTimes_word (by decide) (by decide) fun _ => rfl
    · exact Dialect.spellsTimes_call hl (exists_call ht hb)

end Metal

/-! ## All targets -/

namespace Piece

variable {texts : List String} {n : Nat}

theorem getD_set (hn : n < texts.length) (text : String) (i : Nat) :
    (texts.set n text).getD i "" = if i = n then text else texts.getD i "" := by
  simp only [List.getD_eq_getElem?_getD, List.getElem?_set]
  by_cases h : n = i
  · subst h
    simp [hn]
  · simp [h, Ne.symm h]

/-- A piece gets longer with the part it inserts. -/
theorem length_fill_set (hn : n < texts.length) (piece : Piece) :
    (piece.fill (texts.set n "x")).length =
      (piece.fill (texts.set n "")).length + if piece.part? = some n then 1 else 0 := by
  cases piece with
  | word => simp [fill, part?]
  | part i =>
    simp only [fill, part?, getD_set hn, Option.some.injEq]
    split <;> rfl
  | enclosed i =>
    simp only [fill, part?, getD_set hn, Option.some.injEq]
    split <;> rfl

end Piece

namespace Frame

variable {texts : List String} {n : Nat}

/-- One more character in a part is there as often as the part is inserted. -/
theorem length_fill_set (hn : n < texts.length) (frame : Frame) :
    (frame.fill (texts.set n "x")).length =
      (frame.fill (texts.set n "")).length + frame.parts.count n := by
  induction frame with
  | nil => rfl
  | cons piece rest ih =>
    have hparts : (parts (piece :: rest)).count n =
        (if piece.part? = some n then 1 else 0) + (parts rest).count n := by
      cases hpart : piece.part? with
      | none => simp [parts, hpart]
      | some i =>
        simp only [parts, List.filterMap_cons, hpart, List.count_cons, Option.some.injEq,
          beq_iff_eq]
        omega
    rw [hparts, fill_cons, fill_cons, String.length_append, String.length_append, ih,
      Piece.length_fill_set hn]
    omega

end Frame

namespace Dialect

variable {d : Dialect} {i : Intrinsic} {tys : List Ty}

/-- All frames of an intrinsic insert an argument equally often. -/
theorem Inserts.count_eq {a b : Frame} {n : Nat} (ha : d.Inserts i tys a) (hb : d.Inserts i tys b)
    (hn : n < tys.length) : a.parts.count n = b.parts.count n := by
  have hfill : ∀ text, a.fill ((List.replicate tys.length "").set n text) =
      b.fill ((List.replicate tys.length "").set n text) := fun text =>
    Except.ok.inj ((ha "" _ (by simp)).symm.trans (hb "" _ (by simp)))
  have hn' : n < (List.replicate tys.length "").length := by simpa using hn
  have hlonger := congrArg String.length (hfill "x")
  rw [Frame.length_fill_set hn', Frame.length_fill_set hn', hfill ""] at hlonger
  omega

/-- Calls of an intrinsic are written in a frame, whatever the texts of the arguments are, and
the frame inserts the arguments that are values as often as is said. -/
structure InsertsTimes (d : Dialect) (i : Intrinsic) (args : List Expr) (times : Nat → Nat) :
    Prop where
  exists_frame : ∃ frame, d.Inserts i (args.map Expr.ty) frame
  counts : ∀ frame, d.Inserts i (args.map Expr.ty) frame →
    frame.Counts (args.map Expr.ty) times
  /-- The call in code is the frame with the texts of its arguments. -/
  text : ∀ frame, d.Inserts i (args.map Expr.ty) frame → ∀ c ty texts,
    d.PartTexts c (.intrinsic i args ty) texts →
      d.expr c (.intrinsic i args ty) = .ok (frame.fill texts)

theorem SpellsTimes.insertsTimes {args : List Expr} {times : Nat → Nat}
    (h : d.SpellsTimes i (args.map Expr.ty) times) : d.InsertsTimes i args times := by
  obtain ⟨frame, hframe, hcounts⟩ := h
  refine ⟨⟨frame, hframe.inserts⟩, fun other hother n ty hn hvalue => ?_,
    fun other hother c ty texts ht => hother.expr_eq ht⟩
  rw [← hcounts n ty hn hvalue]
  exact hother.count_eq hframe.inserts (List.getElem?_eq_some_iff.1 hn).1

end Dialect

namespace Target

/-- How often a target inserts an argument of an intrinsic. -/
def insertions : Target → Intrinsic → List Ty → Nat → Nat
  | .metal => Metal.insertions
  | _ => fun _ _ _ => 1

theorem spellsTimes (t : Target) (fixup : Option Fixup) {i : Intrinsic} {tys : List Ty}
    (h : i.Accepts tys) : (t.language fixup).dialect.SpellsTimes i tys (t.insertions i tys) := by
  cases t with
  | hlsl => exact Hlsl.spellsTimes h
  | glsl330 => exact Glsl.spellsTimes (by simp [Glsl.versions]) h
  | glslEs300 => exact Glsl.spellsTimes (by simp [Glsl.versions]) h
  | glsl450 => exact Glsl.spellsTimes (by simp [Glsl.versions]) h
  | metal => exact Metal.spellsTimes h

end Target

namespace Program

/-- Every target writes every intrinsic that elaboration accepts in a frame that inserts each
argument once that is a value, but Metal inserts the coordinates of an array texture twice. -/
theorem insertsTimes_of_elaborateFunction {p : Program} {d : FunctionDecl} {f : Function}
    (h : p.elaborateFunction d = .ok f) {i : Intrinsic} {args : List Expr} {ty : Ty}
    (he : (Expr.intrinsic i args ty).OccursIn f.body) (t : Target) (fixup : Option Fixup) :
    (t.language fixup).dialect.InsertsTimes i args (t.insertions i (args.map Expr.ty)) := by
  obtain ⟨htyped, -⟩ := typed_expr_of_elaborateFunction h he
  cases htyped with
  | intrinsic haccepts => exact (t.spellsTimes fixup haccepts).insertsTimes

/-- The texture, the sampler and the coordinates that the sample's fragment stage samples at. -/
def sampleArguments : List Expr :=
  [.resource "Albedo" (.resource .texture2D .readOnly),
    .resource "Linear" (.resource .sampler .readOnly),
    .field (.var "pixel" (.struct "Demo.Pixel")) "Uv" (.vector .float 2)]

theorem insertsTimes_sample : ∃ f, sample.elaborateFunction sample.fragment = .ok f ∧
    (Expr.intrinsic .sample sampleArguments .float4).OccursIn f.body ∧
    (Target.language .metal none).dialect.InsertsTimes .sample sampleArguments fun _ => 1 := by
  obtain ⟨f, h, he⟩ : ∃ f, sample.elaborateFunction sample.fragment = .ok f ∧
      (Expr.intrinsic .sample sampleArguments .float4).OccursIn f.body :=
    ⟨_, rfl, _, ⟨_, .head _, .self⟩, _, .init, .self⟩
  have htimes : Target.insertions .metal .sample (sampleArguments.map Expr.ty) = fun _ => 1 :=
    Metal.insertions_of_not_splitsLayer rfl
  exact ⟨f, h, he, htimes ▸ insertsTimes_of_elaborateFunction h he .metal none⟩

/-- A program that counts in the coordinates it samples an array texture at. -/
def countedLayer : Program where
  structs := []
  resources := [⟨"Layers", .texture2DArray, none, .readOnly, none, none⟩,
    ⟨"Linear", .sampler, none, .readOnly, none, none⟩]
  functions := [fragment]
  shaderSets := []
where
  zero : Surface.Expr := .literal (.float ⟨0⟩) none
  count : Surface.Expr :=
    .unary .postIncrement (.var "n" (some (.scalar .int))) (some (.scalar .int))
  coordinates : Surface.Expr :=
    .construct [zero, zero, .cast count (some (.scalar .float))] (some (.vector .float 3))
  fragment : FunctionDecl := {
    name := "Demo.FS"
    metadata := ⟨some .fragment, none⟩
    params := []
    result := .vector .float 4
    body := [
      .declare "n" (.scalar .int) (some (.literal (.int 0) none)),
      .ret (some (.call (.intrinsic "Sample")
        [.resource "Layers" none, .resource "Linear" none, coordinates]
        (some (.vector .float 4))))] }

/-- The array texture, the sampler and the coordinates in core code. -/
def layeredArguments : List Expr :=
  [.resource "Layers" (.resource .texture2DArray .readOnly),
    .resource "Linear" (.resource .sampler .readOnly),
    .construct [.literal (.float ⟨0⟩) .float, .literal (.float ⟨0⟩) .float,
      .cast (.unary .postIncrement (.var "n" .int) .int) .float] (.vector .float 3)]

/-- Metal counts twice where the program counts once, and no frame could insert the
coordinates once. -/
theorem layered_counts_twice : ∃ m f, countedLayer.build ⟨none, some "Demo.FS", none⟩ = .ok m ∧
    m.function? "Demo.FS" = some f ∧
    (Expr.intrinsic .sample layeredArguments .float4).OccursIn f.body ∧
    Metal.dialect.expr ⟨m, .fragment, some f⟩ (.intrinsic .sample layeredArguments .float4) =
      .ok ("Layers.sample(Linear, (float3(0.0f, 0.0f, float((n++)))).xy, " ++
        "uint(rint((float3(0.0f, 0.0f, float((n++)))).z)))") ∧
    ∀ frame, Metal.dialect.Inserts .sample (layeredArguments.map Expr.ty) frame →
      frame.parts.count 2 = 2 := by
  have h : countedLayer.build ⟨none, some "Demo.FS", none⟩ = .ok _ := rfl
  refine ⟨_, _, h, rfl, ⟨_, ⟨_, .tail _ (.head _), .self⟩, _, .ret, .self⟩, by rfl, ?_⟩
  have haccepts : Intrinsic.Accepts .sample (layeredArguments.map Expr.ty) :=
    .sample ⟨⟨.texture2DArray, 3, rfl, rfl, rfl⟩, rfl⟩
  exact fun frame hframe =>
    (Metal.spellsTimes haccepts).insertsTimes.counts frame hframe 2 _ rfl rfl

end Program

end Shading
