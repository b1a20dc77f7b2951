import Shading.Proofs.Model.Rules
import Shading.Proofs.Target.Input
import Shading.Proofs.Text.Names

/-!
# Positions between the stages

The vertex stage writes a position for each vertex, and the fragment stage may read the
position of its pixel.  Both are fields with the semantic of a system position.  HLSL
spells the semantic as `SV_Position`, which a struct can have once, and GLSL sets the
fields that are read from `gl_FragCoord`, a `vec4`.

What the vertex stage writes is checked: a struct has one position, and that is a
`float4`.  What the fragment stage reads is checked for its varyings only, and positions
are no varyings.  So a fragment stage may read positions of any type and number
(`narrow_position_accepted`).  `placesPositions_of_build` says what is known of both
stages and what is missing.
-/

namespace Shading

/-! ## HLSL -/

namespace Hlsl

/-- The semantics that fields bring with them. -/
def fixedSemantics (fields : List Field) : List String :=
  fields.filterMap (fixedSemantic? ·.semantic)

theorem fixedSemantics_cons_of_some {field : Field} {rest : List Field} {name : String}
    (h : fixedSemantic? field.semantic = some name) :
    fixedSemantics (field :: rest) = name :: fixedSemantics rest := List.filterMap_cons_some h

theorem fixedSemantics_cons_of_none {field : Field} {rest : List Field}
    (h : fixedSemantic? field.semantic = none) :
    fixedSemantics (field :: rest) = fixedSemantics rest := List.filterMap_cons_none h

/-- Semantics with a fixed spelling are spelled apart. -/
theorem fixedSemantic?_injective {a b : Option Semantic} {name : String}
    (ha : fixedSemantic? a = some name) (hb : fixedSemantic? b = some name) : a = b := by
  have hspelled : ∀ semantic, fixedSemantic? semantic = some name →
      (semantic = some .systemPosition ∧ name = "SV_Position") ∨
        ∃ n, semantic = some (.colorTarget n) ∧ name = "SV_Target" ++ toString n := by
    intro semantic h
    unfold fixedSemantic? at h
    split at h
    · cases h
      exact .inl ⟨rfl, rfl⟩
    · next n =>
      cases h
      exact .inr ⟨n, rfl, rfl⟩
    · cases h
  have hapart : ∀ n : UInt32, "SV_Position" ≠ "SV_Target" ++ toString n := by
    intro n h
    have hstart := congrArg (·.toList.take 4) h
    simp at hstart
  rcases hspelled a ha with ⟨rfl, hname⟩ | ⟨i, rfl, hname⟩ <;>
    rcases hspelled b hb with ⟨rfl, hname'⟩ | ⟨j, rfl, hname'⟩
  · rfl
  · exact absurd (hname.symm.trans hname') (hapart j)
  · exact absurd (hname'.symm.trans hname) (hapart i)
  · have hnumber : i.toNat = j.toNat := Name.numbered_injective (hname.symm.trans hname')
    rw [UInt32.toNat_inj.1 hnumber]

theorem mem_fixedSemantics_iff {fields : List Field} {semantic : Option Semantic} {name : String}
    (h : fixedSemantic? semantic = some name) :
    name ∈ fixedSemantics fields ↔ ∃ field ∈ fields, field.semantic = semantic := by
  refine List.mem_filterMap.trans (exists_congr fun field => and_congr_right fun _ => ?_)
  constructor
  · exact fun hfield => fixedSemantic?_injective hfield h
  · rintro rfl
    exact h

theorem fixedSemantic?_ne_numbered {fixed : Option Semantic} {name : String}
    (h : fixedSemantic? fixed = some name) (numbered : Option Semantic) (n : Nat) :
    name ≠ numberedSemantic numbered ++ toString n := by
  -- The two start with different letters.
  have hfixed : name.toList.head? = some 'S' := by
    unfold fixedSemantic? at h
    split at h
    · cases h
      rfl
    · cases h
      simp
    · cases h
  rintro rfl
  rw [String.toList_append] at hfixed
  unfold numberedSemantic at hfixed
  split at hfixed <;> simp at hfixed

theorem isDigit_numberedSemantic (semantic : Option Semantic) :
    ∀ c ∈ (numberedSemantic semantic).toList, c.isDigit = false := by
  unfold numberedSemantic
  split <;> simp

/-- A semantic is one that a field brings with it, or a numbered one behind those given. -/
theorem mem_semanticsFrom {earlier : List String} {fields : List Field} {name : String}
    (h : name ∈ semanticsFrom earlier fields) : name ∈ fixedSemantics fields ∨
      ∃ semantic n, earlier.count (numberedSemantic semantic) ≤ n ∧
        name = numberedSemantic semantic ++ toString n := by
  induction fields generalizing earlier with
  | nil => cases h
  | cons field rest ih =>
    rw [semanticsFrom] at h
    split at h
    · next fixed hfixed =>
      rw [fixedSemantics_cons_of_some hfixed]
      rcases List.mem_cons.1 h with rfl | h
      · exact .inl (.head _)
      · exact (ih h).imp_left (.tail _)
    · next hfixed =>
      rw [fixedSemantics_cons_of_none hfixed]
      rcases List.mem_cons.1 h with rfl | h
      · exact .inr ⟨field.semantic, _, Nat.le_refl _, rfl⟩
      · refine (ih h).imp_right fun h => ?_
        obtain ⟨semantic, n, hcount, rfl⟩ := h
        exact ⟨semantic, n, Nat.le_trans List.count_le_count_cons hcount, rfl⟩

theorem mem_semanticsFrom_of_fixed {earlier : List String} {fields : List Field} {name : String}
    (h : name ∈ fixedSemantics fields) : name ∈ semanticsFrom earlier fields := by
  induction fields generalizing earlier with
  | nil => cases h
  | cons field rest ih =>
    rw [semanticsFrom]
    split
    · next fixed hfixed =>
      rw [fixedSemantics_cons_of_some hfixed] at h
      rcases List.mem_cons.1 h with rfl | h
      · exact .head _
      · exact .tail _ (ih h)
    · next hfixed =>
      rw [fixedSemantics_cons_of_none hfixed] at h
      exact .tail _ (ih h)

/-- Numbers keep semantics apart, so only those that fields bring with them can meet. -/
theorem nodup_semanticsFrom_iff {earlier : List String} {fields : List Field} :
    (semanticsFrom earlier fields).Nodup ↔ (fixedSemantics fields).Nodup := by
  induction fields generalizing earlier with
  | nil => exact .rfl
  | cons field rest ih =>
    rw [semanticsFrom]
    split
    · next fixed hfixed =>
      rw [fixedSemantics_cons_of_some hfixed, List.nodup_cons, List.nodup_cons, ih]
      refine and_congr_left fun _ => not_congr ⟨fun hmem => ?_, mem_semanticsFrom_of_fixed⟩
      rcases mem_semanticsFrom hmem with hmem | ⟨semantic, n, -, heq⟩
      · exact hmem
      · exact absurd heq (fixedSemantic?_ne_numbered hfixed semantic n)
    · next hfixed =>
      rw [fixedSemantics_cons_of_none hfixed, List.nodup_cons, ih]
      refine and_iff_right fun hmem => ?_
      rcases mem_semanticsFrom hmem with hmem | ⟨semantic, n, hcount, heq⟩
      · obtain ⟨other, -, hother⟩ := List.mem_filterMap.1 hmem
        exact fixedSemantic?_ne_numbered hother field.semantic _ rfl
      · -- Behind the field, its kind is counted with it.
        obtain ⟨hkind, hn⟩ := (Name.numbered_eq_numbered_iff (isDigit_numberedSemantic _)
          (isDigit_numberedSemantic _)).1 heq
        rw [← hkind, List.count_cons_self, ← hn] at hcount
        exact absurd hcount (Nat.not_succ_le_self _)

/-- The semantics that fields bring with them differ when one is a position at most and no
two go to one render target. -/
theorem nodup_fixedSemantics_iff {fields : List Field} : (fixedSemantics fields).Nodup ↔
    (fields.filter (·.semantic = some .systemPosition)).length ≤ 1 ∧
      (fields.filterMap Signature.target?).Nodup := by
  induction fields with
  | nil => simp [fixedSemantics]
  | cons field rest ih =>
    cases hfixed : fixedSemantic? field.semantic with
    | none =>
      have hposition : field.semantic ≠ some .systemPosition := by
        intro h
        simp [h, fixedSemantic?] at hfixed
      have htarget : Signature.target? field = none := by
        unfold fixedSemantic? at hfixed
        unfold Signature.target?
        split at hfixed <;> simp_all
      rw [fixedSemantics_cons_of_none hfixed, ih,
        List.filter_cons_of_neg (by simpa using hposition), List.filterMap_cons_none htarget]
    | some name =>
      rw [fixedSemantics_cons_of_some hfixed, List.nodup_cons, mem_fixedSemantics_iff hfixed, ih]
      unfold fixedSemantic? at hfixed
      split at hfixed
      · next hposition =>
        have htarget : Signature.target? field = none := by simp [Signature.target?, hposition]
        rw [List.filterMap_cons_none htarget, List.filter_cons_of_pos (by simpa using hposition),
          List.length_cons, hposition, ← and_assoc]
        refine and_congr_left fun _ => ?_
        rw [Nat.succ_le_succ_iff, Nat.le_zero, List.length_eq_zero_iff]
        constructor
        · rintro ⟨hnone, -⟩
          exact List.filter_eq_nil_iff.2 fun f hf hf' => hnone ⟨f, hf, of_decide_eq_true hf'⟩
        · intro hnone
          refine ⟨?_, by simp [hnone]⟩
          rintro ⟨f, hf, hf'⟩
          exact List.filter_eq_nil_iff.1 hnone f hf (decide_eq_true hf')
      · next n htarget =>
        rw [List.filterMap_cons_some (Signature.target?_eq_some_iff.2 htarget),
          List.filter_cons_of_neg (by simp [htarget]), List.nodup_cons, List.mem_filterMap]
        simp only [Signature.target?_eq_some_iff, htarget]
        exact and_left_comm
      · cases hfixed

/-- The semantics of a struct differ when it has one position at most and no two of its
fields go to one render target. -/
theorem nodup_fieldSemantics_iff {d : StructDef} : (fieldSemantics d).Nodup ↔
    d.positions.length ≤ 1 ∧ (d.fields.filterMap Signature.target?).Nodup :=
  nodup_semanticsFrom_iff.trans nodup_fixedSemantics_iff

/-- In a struct that goes to no render target, positions alone decide. -/
theorem nodup_fieldSemantics_iff_of_untargeted {d : StructDef}
    (h : ∀ field ∈ d.fields, Signature.target? field = none) :
    (fieldSemantics d).Nodup ↔ d.positions.length ≤ 1 := by
  rw [nodup_fieldSemantics_iff, List.filterMap_eq_nil_iff.2 h]
  exact and_iff_left .nil

end Hlsl

/-! ## GLSL -/

namespace Glsl

variable {v : Version} {m : Model} {f : Function} {d : StructDef} {fixup : Option Fixup}

/-- A source sets the input of its fragment stage field by field, and calls the entry point
with it.  The fields that hold a position are set from the position of the pixel, and no
others are.  The position of the pixel has the type of each field it is assigned to exactly
when the positions of the struct are `float4`s. -/
def SetsPositions (v : Version) (m : Model) (f : Function) (d : StructDef) (text : String) : Prop :=
  ∃ values args : List String, values.length = d.fields.length ∧
    CallsEntry v m .fragment f text
      (inputVariable v d ++ (d.fields.zip values).flatMap fun (field, value) =>
        inputLine v field value) args ∧
    (∀ entry ∈ d.fields.zip values,
      entry.2 = "gl_FragCoord" ↔ entry.1.semantic = some .systemPosition) ∧
    ((∀ entry ∈ d.fields.zip values, entry.2 = "gl_FragCoord" → entry.1.ty = .float4) ↔
      ∀ position ∈ d.positions, position.ty = .float4)

/-- What holds of the fields that are set from the position of the pixel holds of the
positions. -/
theorem forall_pixel_iff {values : List String} {P : Field → Prop}
    (hlength : values.length = d.fields.length)
    (hpixel : ∀ entry ∈ d.fields.zip values,
      entry.2 = "gl_FragCoord" ↔ entry.1.semantic = some .systemPosition) :
    (∀ entry ∈ d.fields.zip values, entry.2 = "gl_FragCoord" → P entry.1) ↔
      ∀ position ∈ d.positions, P position := by
  constructor
  · intro h position hposition
    obtain ⟨hfield, hsemantic⟩ := List.mem_filter.1 hposition
    -- Each field has a value beside it.
    rw [← List.map_fst_zip (Nat.le_of_eq hlength.symm)] at hfield
    obtain ⟨entry, hentry, rfl⟩ := List.mem_map.1 hfield
    exact h entry hentry ((hpixel entry hentry).2 (of_decide_eq_true hsemantic))
  · intro h entry hentry hvalue
    exact h entry.1 (List.mem_filter.2
      ⟨(List.of_mem_zip hentry).1, decide_eq_true ((hpixel entry hentry).1 hvalue)⟩)

/-- The struct that the stage's input is filled for. -/
theorem inputStruct_of_inputStruct? {c : Context} {name : String}
    (hname : f.inputStruct? = some name) (hd : c.model.struct? name = some d) : inputStruct c f = .ok (some d) := by
  obtain ⟨param, hparam, hty⟩ := Option.bind_eq_some_iff.1 hname
  simp only [inputStruct, hparam]
  exact interfaceStruct_eq hty hd

theorem setsPositions_of_generate {text : String}
    (h : (language v fixup).generate m .fragment = .ok text)
    (hf : m.entryFunction? .fragment = some f)
    (hd : inputStruct ⟨m, .fragment, none⟩ f = .ok (some d)) : SetsPositions v m f d text := by
  obtain ⟨code, hcode, rfl⟩ := Language.generate_eq_ok.1 h
  obtain ⟨start, main, hmain, rfl⟩ := exists_append_main hcode hf
  obtain ⟨input, args, before, lead, after, hinput, -, rfl⟩ := exists_call_of_fragmentMain hmain
  obtain rfl := Except.ok.inj (hd.symm.trans hinput)
  obtain ⟨values, hlength, hvalues, hpixel⟩ := exists_fragmentInputs v 0 d.fields
  refine ⟨values, args, hlength, ⟨start ++ before, lead, after, ?_⟩, hpixel,
    forall_pixel_iff (P := (·.ty = .float4)) hlength hpixel⟩
  rw [← hvalues]
  simp only [Option.toList_some, List.flatMap_cons, List.flatMap_nil, List.append_nil,
    List.append_assoc]

end Glsl

/-! ## Both stages -/

/-- Where the stages of a model have positions. -/
structure Model.PlacesPositions (m : Model) : Prop where
  /-- A struct that the vertex stage writes has one position, a `float4`, and its semantics
  differ. -/
  written : ∀ f name, m.entryFunction? .vertex = some f → f.result = .struct name →
    ∃ d position, m.struct? name = some d ∧ d.positions = [position] ∧ position.ty = .float4 ∧
      (Hlsl.fieldSemantics d).Nodup
  /-- The semantics of a struct that the fragment stage reads differ exactly when it has one
  position at most and no two of its fields go to one render target. -/
  read : ∀ f, m.entryFunction? .fragment = some f → ∀ param ∈ f.params,
    ∃ name d, param.ty = .struct name ∧ m.struct? name = some d ∧
      ((Hlsl.fieldSemantics d).Nodup ↔
        d.positions.length ≤ 1 ∧ (d.fields.filterMap Signature.target?).Nodup)
  /-- Behind a vertex stage the fragment stage reads no render targets, so positions alone
  decide. -/
  linked : ∀ vertex f name d, m.entryFunction? .vertex = some vertex →
    m.entryFunction? .fragment = some f → f.inputStruct? = some name → m.struct? name = some d →
      ((Hlsl.fieldSemantics d).Nodup ↔ d.positions.length ≤ 1)
  /-- GLSL sets positions, and nothing else, from the `vec4` that holds the position of the
  pixel. -/
  set : ∀ f name d, m.entryFunction? .fragment = some f → f.inputStruct? = some name →
    m.struct? name = some d → ∀ v fixup text,
      (Glsl.language v fixup).generate m .fragment = .ok text → Glsl.SetsPositions v m f d text

/-- What is read from a vertex stage goes to no render target. -/
theorem StructDef.ReadFrom.target?_eq_none {m : Model} {vertex : Function} {input : StructDef}
    (h : input.ReadFrom m vertex) {field : Field} (hf : field ∈ input.fields) :
    Signature.target? field = none := by
  refine Option.eq_none_iff_forall_not_mem.2 fun n hn => ?_
  have hsemantic := Signature.target?_eq_some_iff.1 hn
  have hvarying : field ∈ input.varyings := List.mem_filter.2 ⟨hf, by simp [hsemantic]⟩
  cases h with
  | position _ hnone =>
    rw [hnone] at hvarying
    cases hvarying
  | struct _ _ htargets hlinks _ =>
    obtain ⟨l, hl⟩ := List.getElem?_of_mem hvarying
    obtain ⟨w, hw, hlink⟩ := hlinks l field hl
    have hlinkage := (Field.links_iff.1 hlink).2
    simp only [Field.linkage, hsemantic, Option.getD_some] at hlinkage
    -- A varying without a semantic is linked as a texture coordinate.
    have hwritten : w.semantic = some (.colorTarget n) := by
      cases hs : w.semantic with
      | none => rw [hs] at hlinkage; cases hlinkage
      | some semantic => rw [hs] at hlinkage; exact congrArg some hlinkage
    have hnone := htargets w (List.mem_filter.1 (List.mem_of_getElem? hw)).1
    cases hnone.symm.trans (Signature.target?_eq_some_iff.2 hwritten)

namespace Program

variable {p : Program} {set : EntrySet} {m : Model}

theorem BuiltFrom.named_entryFunction? {reached : Expanded Function} {uses : List StageUse}
    (h : BuiltFrom p set m reached uses) {stage : Stage} {f : Function}
    (hf : m.entryFunction? stage = some f) :
    ∃ entry, set.entryName? stage = some entry ∧ m.function? entry = some f := by
  rw [Model.entryFunction?, h.entryPoints] at hf
  exact Option.bind_eq_some_iff.1 hf

/-- Where the stages of a model that was built have positions. -/
theorem placesPositions_of_build (h : p.build set = .ok m) : m.PlacesPositions := by
  obtain ⟨_, _, hbuilt⟩ := builtFrom_of_build h
  refine ⟨?_, ?_, ?_, ?_⟩
  · intro f name hf hresult
    obtain ⟨entry, he, hfind⟩ := hbuilt.named_entryFunction? hf
    cases (hbuilt.fits_of_entry he hfind).returns with
    | position hposition => cases hposition.symm.trans hresult
    | @vertex _ d position hstruct hd hpositions hty htargets =>
      cases hstruct.symm.trans hresult
      have hnone : ∀ field ∈ d.fields, Signature.target? field = none := fun field hfield =>
        Option.eq_none_iff_forall_not_mem.2 fun n hn =>
          htargets field hfield n (Signature.target?_eq_some_iff.1 hn)
      refine ⟨d, position, hd.found, hpositions, hty,
        (Hlsl.nodup_fieldSemantics_iff_of_untargeted hnone).2 ?_⟩
      rw [show d.positions = [position] from hpositions]
      exact Nat.le_refl 1
  · intro f hf param hparam
    obtain ⟨entry, he, hfind⟩ := hbuilt.named_entryFunction? hf
    cases ((hbuilt.fits_of_entry he hfind).params param hparam).2 with
    | input _ _ hty hd => exact ⟨_, _, hty, hd.found, Hlsl.nodup_fieldSemantics_iff⟩
  · intro vertex f name d hv hf hname hd
    obtain ⟨v, hev, hfindv⟩ := hbuilt.named_entryFunction? hv
    obtain ⟨e, hef, hfindf⟩ := hbuilt.named_entryFunction? hf
    obtain ⟨input, hinput, hread⟩ := hbuilt.reads_written hev hef hfindv hfindf hname
    obtain rfl := Option.some.inj (hd.symm.trans hinput)
    exact Hlsl.nodup_fieldSemantics_iff_of_untargeted fun field => hread.target?_eq_none
  · intro f name d hf hname hd v fixup text htext
    exact Glsl.setsPositions_of_generate htext hf (Glsl.inputStruct_of_inputStruct? hname hd)

theorem placesPositions_sample :
    ∃ m, sample.build sampleSet = .ok m ∧ m.PlacesPositions := by
  have h : sample.build sampleSet = .ok _ := rfl
  exact ⟨_, h, placesPositions_of_build h⟩

/-! ### What is not checked -/

/-- A vertex stage that writes a position alone, and a fragment stage that reads a struct. -/
def pixels (fields : List FieldDecl) : Program where
  structs := [⟨"Demo.Pixel", fields⟩]
  resources := []
  functions := [{
    name := "Demo.VS"
    metadata := ⟨some .vertex, none⟩
    params := []
    result := .vector .float 4
    body := [.ret (some (.construct [.literal (.int 0) none] (some (.vector .float 4))))] }, {
    name := "Demo.FS"
    metadata := ⟨some .fragment, none⟩
    params := [⟨"input", .named "Demo.Pixel", .input, none⟩]
    result := .void
    body := [] }]
  shaderSets := []

def pixelSet : EntrySet := ⟨some "Demo.VS", some "Demo.FS", none⟩

/-- The fragment stage reads a position with two components. -/
def narrow : Program := pixels [⟨"Position", .vector .float 2, some .systemPosition⟩]

/-- The fragment stage reads two positions. -/
def doubled : Program :=
  pixels [⟨"Position", .vector .float 4, some .systemPosition⟩,
    ⟨"Pixel", .vector .float 4, some .systemPosition⟩]

/-- Both programs are accepted.  In GLSL a `vec4` is assigned to a field with two components,
and in HLSL two fields have one semantic. -/
theorem narrow_position_accepted :
    (∃ m f d code, narrow.build pixelSet = .ok m ∧ m.entryFunction? .fragment = some f ∧
      f.inputStruct? = some "Demo.Pixel" ∧ m.struct? "Demo.Pixel" = some d ∧
      d.positions.map (·.ty) = [.vector .float 2] ∧
      (Glsl.language Glsl.core330 none).code m .fragment = .ok code ∧
      .line "_stage_input.Position = gl_FragCoord;" ∈ code) ∧
    ∃ m f d, doubled.build pixelSet = .ok m ∧ m.entryFunction? .fragment = some f ∧
      f.inputStruct? = some "Demo.Pixel" ∧ m.struct? "Demo.Pixel" = some d ∧
      d.positions.length = 2 ∧ ¬ (Hlsl.fieldSemantics d).Nodup := by
  have hnarrow : narrow.build pixelSet = .ok _ := rfl
  have hdoubled : doubled.build pixelSet = .ok _ := rfl
  exact ⟨⟨_, _, _, _, hnarrow, rfl, rfl, rfl, rfl, rfl, by decide⟩,
    ⟨_, _, _, hdoubled, rfl, rfl, rfl, rfl, by decide⟩⟩

end Program

end Shading
