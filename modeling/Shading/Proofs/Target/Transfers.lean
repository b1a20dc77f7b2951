import Shading.Proofs.Model.Rules
import Shading.Proofs.Target.Main
import Shading.Proofs.Text.Names

/-!
# Each field is carried once

The loops that declare the variables of a stage and that fill and empty them run over the
fields of the same structs (`StageVariable`, `Transfer`).  Each loop names each field once,
so a field has one declaration, and one line of `main` that carries it.
-/

namespace Shading

/-- An element of a list whose key no other element has is what is left of it. -/
theorem filter_map_eq_singleton {α β κ : Type} {list : List α} {key : α → κ} {g : α → β}
    {q : β → Bool} (hnodup : (list.map key).Nodup) {a : α} (ha : a ∈ list)
    (h : ∀ b ∈ list, q (g b) = true ↔ key b = key a) : (list.map g).filter q = [g a] := by
  induction list with
  | nil => cases ha
  | cons b rest ih =>
    rw [List.map_cons, List.nodup_cons] at hnodup
    obtain ⟨hb, hrest⟩ := List.forall_mem_cons.1 h
    rw [List.map_cons]
    rcases List.mem_cons.1 ha with rfl | hmem
    · have hnone : (rest.map g).filter q = [] := by
        rw [List.filter_eq_nil_iff, List.forall_mem_map]
        exact fun x hx hq => hnodup.1 (List.mem_map.2 ⟨x, hx, (hrest x hx).1 hq⟩)
      rw [List.filter_cons_of_pos (hb.2 rfl), hnone]
    · have hother : ¬ q (g b) = true := fun hq =>
        hnodup.1 (List.mem_map.2 ⟨a, hmem, (hb.1 hq).symm⟩)
      rw [List.filter_cons_of_neg hother]
      exact ih hnodup.2 hmem hrest

namespace Glsl

/-! ## Each loop carries each field once -/

section Lists

variable {d : StructDef} {l : Nat} {field : Field} {n : UInt32}

theorem nodup_locations (fields : List Field) : (fields.zipIdx.map Prod.snd).Nodup := by
  rw [List.zipIdx_map_snd]
  exact List.nodup_range'

theorem nodup_zipIdx_fields {fields : List Field} (h : fields.Nodup) :
    (fields.zipIdx.map Prod.fst).Nodup := by rwa [List.zipIdx_map_fst]

theorem mem_zipIdx_of_getElem? {fields : List Field} (h : fields[l]? = some field) :
    (field, l) ∈ fields.zipIdx := List.mk_mem_zipIdx_iff_getElem?.2 h

theorem varyingName_inj {a b : Nat} : varyingName a = varyingName b ↔ a = b :=
  ⟨Name.numbered_injective, congrArg varyingName⟩

theorem targetName_inj {a b : UInt32} : targetName a = targetName b ↔ a = b :=
  ⟨fun h => UInt32.toNat_inj.1 (Name.numbered_injective h), congrArg targetName⟩

/-- Names are told apart by how they start. -/
theorem ne_of_start {a b : String} (h : a.toList.take 2 ≠ b.toList.take 2) : a ≠ b :=
  fun hab => h (hab ▸ rfl)

@[simp] theorem start_varyingName (l : Nat) : (varyingName l).toList.take 2 = ['f', 's'] := by
  simp [varyingName]

theorem varyingName_ne {name : String} (h : name.toList.take 2 ≠ ['f', 's']) (l : Nat) :
    varyingName l ≠ name := ne_of_start (by rw [start_varyingName]; exact h.symm)

/-- What the position is moved by has another name. -/
theorem moved_varyingName (l : Nat) :
    (varyingName l).toList.take 12 ≠ "gl_Position.".toList := by
  simp [varyingName]

@[simp] theorem start_targetName (n : UInt32) : (targetName n).toList.take 2 = ['_', 'o'] := by
  simp [targetName]

theorem moved_targetName (n : UInt32) :
    (targetName n).toList.take 12 ≠ "gl_Position.".toList := by
  simp [targetName]

namespace StageVariable

theorem filter_attributes (h : d.fields.Nodup) (hl : d.fields[l]? = some field) :
    (attributes d).filter (·.attribute? = some field) = [.attribute l field] :=
  filter_map_eq_singleton (nodup_zipIdx_fields h) (mem_zipIdx_of_getElem? hl) fun _ _ => by
    simp [attribute?]

theorem filter_varyings (direction : String) (hl : d.varyings[l]? = some field) :
    (varyings direction d).filter (·.declared = (direction, varyingName l)) =
      [.varying direction l field] :=
  filter_map_eq_singleton (nodup_locations _) (mem_zipIdx_of_getElem? hl) fun _ _ => by
    simp [declared, varyingName_inj]

variable {s : StageVariable} {option : Option StructDef}

theorem exists_of_mem_attributes (h : s ∈ option.toList.flatMap attributes) :
    ∃ d l field, option = some d ∧ d.fields[l]? = some field ∧ s = .attribute l field := by
  obtain ⟨d, hd, hs⟩ := List.mem_flatMap.1 h
  obtain ⟨⟨field, l⟩, hentry, rfl⟩ := List.mem_map.1 hs
  exact ⟨d, l, field, Option.mem_toList.1 hd, List.mk_mem_zipIdx_iff_getElem?.1 hentry, rfl⟩

theorem exists_of_mem_varyings {direction : String}
    (h : s ∈ option.toList.flatMap (varyings direction)) :
    ∃ d l field, option = some d ∧ d.varyings[l]? = some field ∧
      s = .varying direction l field := by
  obtain ⟨d, hd, hs⟩ := List.mem_flatMap.1 h
  obtain ⟨⟨field, l⟩, hentry, rfl⟩ := List.mem_map.1 hs
  exact ⟨d, l, field, Option.mem_toList.1 hd, List.mk_mem_zipIdx_iff_getElem?.1 hentry, rfl⟩

theorem declared_attributes : ∀ s ∈ option.toList.flatMap attributes, s.declared.1 = "in" := by
  intro s hs
  obtain ⟨_, _, _, -, -, rfl⟩ := exists_of_mem_attributes hs
  rfl

theorem declared_varyings (direction : String) :
    ∀ s ∈ option.toList.flatMap (varyings direction), s.declared.1 = direction := by
  intro s hs
  obtain ⟨_, _, _, -, -, rfl⟩ := exists_of_mem_varyings hs
  rfl

/-- Varyings are no attributes. -/
theorem filter_attribute_varyings (direction : String) (field : Field) :
    (option.toList.flatMap (varyings direction)).filter (·.attribute? = some field) = [] := by
  rw [List.filter_eq_nil_iff]
  intro s hs
  obtain ⟨_, _, _, -, -, rfl⟩ := exists_of_mem_varyings hs
  simp [attribute?]

theorem declared_targets (result : Ty) : ∀ s ∈ targets result option, s.declared.1 = "out" := by
  intro s hs
  cases option with
  | some d =>
    obtain ⟨entry, -, rfl⟩ := List.mem_map.1 hs
    rfl
  | none =>
    rw [targets] at hs
    split at hs
    · cases hs
    · rw [List.mem_singleton.1 hs]
      rfl

/-- What is read is not declared with what is written. -/
theorem filter_other {ports : List StageVariable} {direction other name : String}
    (h : ∀ s ∈ ports, s.declared.1 = other) (hne : other ≠ direction) :
    ports.filter (·.declared = (direction, name)) = [] :=
  List.filter_eq_nil_iff.2 fun s hs hdeclared =>
    hne ((h s hs).symm.trans (congrArg Prod.fst (of_decide_eq_true hdeclared)))

end StageVariable

/-! ### Render targets -/

theorem mem_targets : (field, n) ∈ targets d ↔
    field ∈ d.fields ∧ field.semantic = some (.colorTarget n) := by
  rw [← Signature.target?_eq_some_iff, targets, List.mem_filterMap]
  constructor
  · rintro ⟨g, hg, hn⟩
    obtain ⟨k, hk, heq⟩ := Option.map_eq_some_iff.1 hn
    cases heq
    exact ⟨hg, hk⟩
  · rintro ⟨hfield, hn⟩
    exact ⟨field, hfield, Option.map_eq_some_iff.2 ⟨n, hn, rfl⟩⟩

/-- The render targets of a struct, by what the checks find. -/
theorem snd_targets (d : StructDef) :
    (targets d).map Prod.snd = d.fields.filterMap Signature.target? := by
  rw [targets, List.map_filterMap]
  refine List.filterMap_congr fun field _ => ?_
  rw [Option.map_map]
  exact congrFun Option.map_id _

theorem nodup_indices (h : (d.fields.filterMap Signature.target?).Nodup) :
    ((targets d).map Prod.snd).Nodup := by rwa [snd_targets]

/-- Fields with semantics of their own go to render targets of their own. -/
theorem nodup_targets_of_semantics (h : (d.fields.map (·.semantic)).Nodup) :
    (d.fields.filterMap Signature.target?).Nodup := by
  have hpairs := List.pairwise_map.1 h
  refine List.pairwise_filterMap.2 (hpairs.imp fun {a b} hne n hn k hk => ?_)
  rintro rfl
  exact hne ((Signature.target?_eq_some_iff.1 hn).trans (Signature.target?_eq_some_iff.1 hk).symm)

theorem nodup_targeted (h : d.fields.Nodup) : ((targets d).map Prod.fst).Nodup := by
  refine List.Nodup.sublist ?_ h
  rw [targets]
  clear h
  induction d.fields with
  | nil => exact .slnil
  | cons field rest ih =>
    rw [List.filterMap_cons]
    cases target? field with
    | none => exact ih.cons field
    | some n => exact ih.cons_cons field

theorem StageVariable.filter_targets (h : (d.fields.filterMap Signature.target?).Nodup)
    (hn : (field, n) ∈ Glsl.targets d) (result : Ty) :
    (StageVariable.targets result (some d)).filter (·.declared = ("out", targetName n)) =
      [.target n field] :=
  filter_map_eq_singleton (nodup_indices h) hn fun _ _ => by
    simp [declared, targetName_inj]

namespace Transfer

variable {t : Transfer} {name : String}

/-! ### Inputs -/

/-- Whether a line makes the input. -/
def isInput : Transfer → Bool
  | .input _ | .fill _ _ => true
  | _ => false

/-- What makes the input does nothing else. -/
theorem of_isInput (h : t.isInput = true) : t.calls = false ∧ t.taken? = none ∧
    t.isFixup = false ∧ ∀ name, t.assigned? = some name → name.toList.take 2 = ['_', 's'] := by
  cases t with
  | input => exact ⟨rfl, rfl, rfl, nofun⟩
  | fill =>
    refine ⟨rfl, rfl, rfl, ?_⟩
    rintro _ ⟨⟩
    simp
  | _ => cases h

theorem isInput_attributeInputs : ∀ t ∈ attributeInputs d, t.isInput = true := by
  simp [attributeInputs, isInput]

theorem isInput_varyingInputs : ∀ t ∈ varyingInputs d, t.isInput = true := by
  refine List.forall_mem_cons.2 ⟨rfl, fun t ht => ?_⟩
  obtain ⟨entry, -, rfl⟩ := List.mem_map.1 ht
  rfl

theorem filter_attributeInputs (h : d.fields.Nodup) (hf : field ∈ d.fields) :
    (attributeInputs d).filter (·.filled? = some field) =
      [.fill field (correctedName reserved field.name)] := by
  have hkeys : (d.fields.map id).Nodup := by rwa [List.map_id]
  rw [attributeInputs, List.filter_cons_of_neg (by simp [filled?])]
  exact filter_map_eq_singleton hkeys hf fun _ _ => by simp [filled?]

theorem fst_varyingValues (location : Nat) (fields : List Field) :
    (varyingValues location fields).map Prod.fst = fields := by
  induction fields generalizing location with
  | nil => rfl
  | cons field rest ih =>
    rw [varyingValues]
    split <;> rw [List.map_cons, ih]

/-- A varying is set to the variable at its location. -/
theorem mem_varyingValues {fields : List Field} (location : Nat)
    (hl : (fields.filter (·.semantic ≠ some .systemPosition))[l]? = some field) :
    (field, varyingName (location + l)) ∈ varyingValues location fields := by
  induction fields generalizing location l with
  | nil => cases hl
  | cons first rest ih =>
    rw [varyingValues]
    split
    · next hposition =>
      rw [List.filter_cons_of_neg (by simpa using hposition)] at hl
      exact .tail _ (ih location hl)
    · next hvarying =>
      rw [List.filter_cons_of_pos (by simpa using hvarying)] at hl
      cases l with
      | zero =>
        obtain rfl := Option.some.inj hl
        exact .head _
      | succ l =>
        rw [show location + (l + 1) = location + 1 + l by omega]
        exact .tail _ (ih (location + 1) hl)

/-- A position between two varyings takes no location. -/
example : (varyingValues 0 [⟨"Color", .float4, none⟩, ⟨"Pixel", .float4, some .systemPosition⟩,
    ⟨"Uv", .vector .float 2, none⟩]).map Prod.snd = ["fsin_0", "gl_FragCoord", "fsin_1"] := by
  decide

theorem mem_varyingValues_of_position {fields : List Field} (location : Nat)
    (hf : field ∈ fields) (hposition : field.semantic = some .systemPosition) :
    (field, "gl_FragCoord") ∈ varyingValues location fields := by
  induction fields generalizing location with
  | nil => cases hf
  | cons first rest ih =>
    rw [varyingValues]
    rcases List.mem_cons.1 hf with rfl | hf
    · rw [if_pos hposition]
      exact .head _
    · split
      · exact .tail _ (ih location hf)
      · exact .tail _ (ih (location + 1) hf)

/-- Every field is set once. -/
theorem filter_varyingInputs (h : d.fields.Nodup) {value : String}
    (hv : (field, value) ∈ varyingValues 0 d.fields) :
    (varyingInputs d).filter (·.filled? = some field) = [.fill field value] := by
  rw [varyingInputs, List.filter_cons_of_neg (by simp [filled?])]
  rw [← fst_varyingValues 0 d.fields] at h
  exact filter_map_eq_singleton h hv fun _ _ => by simp [filled?]

/-! ### Outputs -/

theorem filter_varyingOutputs (hl : d.varyings[l]? = some field) :
    (varyingOutputs d).filter (·.assigned? = some (varyingName l)) =
      [.write (varyingName l) field] :=
  filter_map_eq_singleton (nodup_locations _) (mem_zipIdx_of_getElem? hl) fun _ _ => by
    simp [assigned?, varyingName_inj]

theorem filter_taken_varyingOutputs (h : d.fields.Nodup) (hl : d.varyings[l]? = some field) :
    (varyingOutputs d).filter (·.taken? = some field) = [.write (varyingName l) field] :=
  filter_map_eq_singleton (nodup_zipIdx_fields (h.filter _)) (mem_zipIdx_of_getElem? hl)
    fun _ _ => by simp [taken?]

/-- In a vertex stage a varying is set from its field alone. -/
theorem filter_vertexOutputs (hl : d.varyings[l]? = some field) :
    (vertexOutputs (some d)).filter (·.assigned? = some (varyingName l)) =
      [.write (varyingName l) field] := by
  have hpositions : (d.positions.map (write "gl_Position")).filter
      (·.assigned? = some (varyingName l)) = [] := by
    rw [List.filter_eq_nil_iff, List.forall_mem_map]
    intro position _
    have hne : varyingName l ≠ "gl_Position" := varyingName_ne (by decide) l
    simpa [assigned?] using hne.symm
  have hresult : (Transfer.result d).assigned? ≠ some (varyingName l) := by
    have hne : varyingName l ≠ "_stage_output" := varyingName_ne (by decide) l
    simpa [assigned?] using hne.symm
  rw [vertexOutputs, List.filter_cons_of_neg (by simpa using hresult), List.filter_append,
    hpositions, filter_varyingOutputs hl, List.nil_append]

/-- In a vertex stage a field that is a varying goes to it alone. -/
theorem filter_taken_vertexOutputs (h : d.fields.Nodup) (hl : d.varyings[l]? = some field) :
    (vertexOutputs (some d)).filter (·.taken? = some field) = [.write (varyingName l) field] := by
  have hpositions :
      (d.positions.map (write "gl_Position")).filter (·.taken? = some field) = [] := by
    rw [List.filter_eq_nil_iff, List.forall_mem_map]
    intro position hposition htaken
    obtain rfl : position = field := by simpa [taken?] using htaken
    have hvarying := (List.mem_filter.1 (List.mem_of_getElem? hl)).2
    simp [of_decide_eq_true (List.mem_filter.1 hposition).2] at hvarying
  rw [vertexOutputs, List.filter_cons_of_neg (by simp [taken?]), List.filter_append, hpositions,
    filter_taken_varyingOutputs h hl, List.nil_append]

theorem filter_assigned_varyingOutputs {name : String} (hname : name.toList.take 2 ≠ ['f', 's']) :
    (varyingOutputs d).filter (·.assigned? = some name) = [] := by
  rw [List.filter_eq_nil_iff]
  intro t ht hassigned
  obtain ⟨entry, -, rfl⟩ := List.mem_map.1 ht
  obtain rfl : varyingName entry.2 = name := by simpa [assigned?] using hassigned
  exact hname (start_varyingName _)

theorem filter_targetOutputs (h : (d.fields.filterMap Signature.target?).Nodup)
    (hn : (field, n) ∈ Glsl.targets d) :
    (targetOutputs d).filter (·.assigned? = some (targetName n)) =
      [.write (targetName n) field] := by
  rw [targetOutputs, filter_map_eq_singleton (nodup_indices h) hn]
  simp [assigned?, targetName_inj]

theorem filter_taken_targetOutputs (h : d.fields.Nodup) (hn : (field, n) ∈ Glsl.targets d) :
    (targetOutputs d).filter (·.taken? = some field) = [.write (targetName n) field] := by
  rw [targetOutputs, filter_map_eq_singleton (nodup_targeted h) hn]
  simp [taken?]

/-- In a fragment stage a render target is set from its field alone. -/
theorem filter_fragmentOutputs {result : Ty} (h : (d.fields.filterMap Signature.target?).Nodup)
    (hn : (field, n) ∈ Glsl.targets d) :
    (fragmentOutputs result (some d)).filter (·.assigned? = some (targetName n)) =
      [.write (targetName n) field] := by
  have hne : targetName n ≠ "_stage_output" := ne_of_start (by rw [start_targetName]; decide)
  rw [fragmentOutputs, List.filter_cons_of_neg (by simpa [assigned?] using hne.symm),
    filter_targetOutputs h hn]

theorem filter_taken_fragmentOutputs {result : Ty} (h : d.fields.Nodup)
    (hn : (field, n) ∈ Glsl.targets d) :
    (fragmentOutputs result (some d)).filter (·.taken? = some field) =
      [.write (targetName n) field] := by
  rw [fragmentOutputs, List.filter_cons_of_neg (by simp [taken?]), filter_taken_targetOutputs h hn]

/-- Whether a line takes the result apart. -/
def isOutput : Transfer → Bool
  | .write _ _ => true
  | _ => false

theorem of_isOutput (h : t.isOutput = true) :
    t.calls = false ∧ t.filled? = none ∧ t.isFixup = false := by
  cases t with
  | write => exact ⟨rfl, rfl, rfl⟩
  | _ => cases h

/-- A fixup moves the position, and assigns to nothing as a whole. -/
theorem of_isFixup (h : t.isFixup = true) :
    t.calls = false ∧ t.filled? = none ∧ t.taken? = none ∧
      ∀ name, t.assigned? = some name → name.toList.take 12 = "gl_Position.".toList := by
  cases t with
  | remapDepth | flipY => exact ⟨rfl, rfl, rfl, by rintro _ ⟨⟩; decide⟩
  | _ => cases h

theorem of_calls (h : t.calls = true) : t.filled? = none ∧ t.isFixup = false := by
  cases t with
  | result | store | run => exact ⟨rfl, rfl⟩
  | _ => cases h

theorem isFixup_fixups (fixup : Fixup) : ∀ t ∈ fixups fixup, t.isFixup = true := by
  obtain ⟨remap, flip⟩ := fixup
  cases remap <;> cases flip <;> decide

end Transfer

end Lists

end Glsl

end Shading
