import Shading.Proofs.Target.Declares
import Shading.Proofs.Target.Order
import Shading.Proofs.Target.Positions
import Shading.Proofs.Target.Transfers

/-!
# Stage wiring

Declarations and assignments around an entry point are written by loops of their own, and
they have to agree on which variable a field goes to.  Every attribute, varying and render
target is declared once and carried once (`wiresStages_of_build`).  That there is one
position to assign, and that no render target is written twice, is what the checks of
signatures are for.
-/

namespace Shading

/-! ## Complete wiring -/

/-- Whether a thing is a variable that a stage reads or writes. -/
def Global.isStageVariable : Global → Bool
  | .input _ | .varying _ | .target _ => true
  | _ => false

namespace Glsl

/-- The entry point is called once, behind what sets its input and before what takes its
result. -/
def CallsOnce (transfers : List Transfer) : Prop :=
  ∃ before call after, transfers = before ++ call :: after ∧ call.calls = true ∧
    (∀ t ∈ before, t.calls = false ∧ t.taken? = none) ∧
    ∀ t ∈ after, t.calls = false ∧ t.filled? = none

/-- The position comes from the result: it is the result, or its only position. -/
inductive TakesPosition (m : Model) (f : Function) : Transfer → Prop where
  | result : f.result = .float4 → TakesPosition m f (.store "gl_Position")
  | field {d : StructDef} {position : Field} : m.output? f = some d → d.positions = [position] →
      TakesPosition m f (.write "gl_Position" position)

/-- A vertex stage reads attributes and writes the position and varyings. -/
structure WiresVertex (m : Model) (f : Function) (fixup : Fixup) (ports : List StageVariable)
    (transfers : List Transfer) : Prop where
  call : CallsOnce transfers
  /-- Every field of the input has an attribute at its place, and is set to it. -/
  attributes : ∀ d, m.input? f = some d → ∀ l field, d.fields[l]? = some field →
    ports.filter (·.attribute? = some field) = [.attribute l field] ∧
    transfers.filter (·.filled? = some field) = [.fill field (correctedName reserved field.name)]
  position : ∃ t, transfers.filter (·.assigned? = some "gl_Position") = [t] ∧ TakesPosition m f t
  /-- The position is moved at last. -/
  fixups : ∃ before, transfers = before ++ Transfer.fixups fixup ∧ ∀ t ∈ before, t.isFixup = false
  /-- Every varying of the result is declared and set to its field. -/
  varyings : ∀ d, m.output? f = some d → ∀ l field, d.varyings[l]? = some field →
    ports.filter (·.declared = ("out", varyingName l)) = [.varying "out" l field] ∧
    transfers.filter (·.assigned? = some (varyingName l)) = [.write (varyingName l) field] ∧
    transfers.filter (·.taken? = some field) = [.write (varyingName l) field]
  /-- There are no other variables. -/
  only : ∀ s ∈ ports,
    (∃ d l field, m.input? f = some d ∧ d.fields[l]? = some field ∧ s = .attribute l field) ∨
    ∃ d l field, m.output? f = some d ∧ d.varyings[l]? = some field ∧ s = .varying "out" l field

/-- A fragment stage reads varyings and writes render targets. -/
structure WiresFragment (m : Model) (f : Function) (ports : List StageVariable)
    (transfers : List Transfer) : Prop where
  call : CallsOnce transfers
  /-- Every varying of the input is declared, and its field is set to it. -/
  varyings : ∀ d, m.input? f = some d → ∀ l field, d.varyings[l]? = some field →
    ports.filter (·.declared = ("in", varyingName l)) = [.varying "in" l field] ∧
    transfers.filter (·.filled? = some field) = [.fill field (varyingName l)]
  positions : ∀ d, m.input? f = some d → ∀ field ∈ d.positions,
    transfers.filter (·.filled? = some field) = [.fill field "gl_FragCoord"]
  /-- Every render target of the result is declared and set to its field. -/
  targets : ∀ d, m.output? f = some d → ∀ field ∈ d.fields, ∀ n,
    field.semantic = some (.colorTarget n) →
      ports.filter (·.declared = ("out", targetName n)) = [.target n field] ∧
      transfers.filter (·.assigned? = some (targetName n)) = [.write (targetName n) field] ∧
      transfers.filter (·.taken? = some field) = [.write (targetName n) field]
  /-- A color that is returned goes to the first render target. -/
  color : f.result = .float4 →
    ports.filter (·.declared = ("out", targetName 0)) = [.color] ∧
    transfers.filter (·.assigned? = some (targetName 0)) = [.store (targetName 0)]
  /-- There are no other variables. -/
  only : ∀ s ∈ ports,
    (∃ d l field, m.input? f = some d ∧ d.varyings[l]? = some field ∧ s = .varying "in" l field) ∨
    (∃ d n field, m.output? f = some d ∧ field ∈ d.fields ∧
      field.semantic = some (.colorTarget n) ∧ s = .target n field) ∨
    f.result = .float4 ∧ s = .color

/-! ## Stages -/

section Stages

open Transfer (of_isInput of_isOutput of_isFixup of_calls)

variable {m : Model} {f : Function} {fixup : Fixup} {inputs outputs moves : List Transfer}
  {field : Field} {name : String}

/-- The lines of `main`: the input is made, the entry point is called and its result is taken
apart, and the position is moved. -/
structure Arranged (inputs outputs moves : List Transfer) : Prop where
  inputs : ∀ t ∈ inputs, t.isInput = true
  outputs : ∃ call rest, outputs = call :: rest ∧ call.calls = true ∧ ∀ t ∈ rest, t.isOutput = true
  moves : ∀ t ∈ moves, t.isFixup = true

namespace Arranged

theorem callsOnce (h : Arranged inputs outputs moves) : CallsOnce (inputs ++ outputs ++ moves) := by
  obtain ⟨call, rest, rfl, hcall, hrest⟩ := h.outputs
  refine ⟨inputs, call, rest ++ moves, by simp, hcall, fun t ht => ?_,
    List.forall_mem_append.2 ⟨fun t ht => ?_, fun t ht => ?_⟩⟩
  · obtain ⟨hcalls, htaken, -⟩ := of_isInput (h.inputs t ht)
    exact ⟨hcalls, htaken⟩
  · obtain ⟨hcalls, hfilled, -⟩ := of_isOutput (hrest t ht)
    exact ⟨hcalls, hfilled⟩
  · obtain ⟨hcalls, hfilled, -⟩ := of_isFixup (h.moves t ht)
    exact ⟨hcalls, hfilled⟩

/-- Fields are set before the call. -/
theorem filter_filled (h : Arranged inputs outputs moves) :
    (inputs ++ outputs ++ moves).filter (·.filled? = some field) =
      inputs.filter (·.filled? = some field) := by
  obtain ⟨call, rest, rfl, hcall, hrest⟩ := h.outputs
  have houtputs : (call :: rest).filter (·.filled? = some field) = [] := by
    rw [List.filter_eq_nil_iff, List.forall_mem_cons]
    exact ⟨by simp [(of_calls hcall).1], fun t ht => by simp [(of_isOutput (hrest t ht)).2.1]⟩
  have hmoves : moves.filter (·.filled? = some field) = [] :=
    List.filter_eq_nil_iff.2 fun t ht => by simp [(of_isFixup (h.moves t ht)).2.1]
  rw [List.filter_append, List.filter_append, houtputs, hmoves, List.append_nil, List.append_nil]

/-- What a stage writes is assigned to where the result is taken apart. -/
theorem filter_assigned (h : Arranged inputs outputs moves)
    (hstart : name.toList.take 2 ≠ ['_', 's'])
    (hmoved : name.toList.take 12 ≠ "gl_Position.".toList) :
    (inputs ++ outputs ++ moves).filter (·.assigned? = some name) =
      outputs.filter (·.assigned? = some name) := by
  have hinputs : inputs.filter (·.assigned? = some name) = [] :=
    List.filter_eq_nil_iff.2 fun t ht hname =>
      hstart ((of_isInput (h.inputs t ht)).2.2.2 name (of_decide_eq_true hname))
  have hmoves : moves.filter (·.assigned? = some name) = [] :=
    List.filter_eq_nil_iff.2 fun t ht hname =>
      hmoved ((of_isFixup (h.moves t ht)).2.2.2 name (of_decide_eq_true hname))
  rw [List.filter_append, List.filter_append, hinputs, hmoves, List.append_nil, List.nil_append]

theorem filter_taken (h : Arranged inputs outputs moves) :
    (inputs ++ outputs ++ moves).filter (·.taken? = some field) =
      outputs.filter (·.taken? = some field) := by
  have hinputs : inputs.filter (·.taken? = some field) = [] :=
    List.filter_eq_nil_iff.2 fun t ht => by simp [(of_isInput (h.inputs t ht)).2.1]
  have hmoves : moves.filter (·.taken? = some field) = [] :=
    List.filter_eq_nil_iff.2 fun t ht => by simp [(of_isFixup (h.moves t ht)).2.2.1]
  rw [List.filter_append, List.filter_append, hinputs, hmoves, List.append_nil, List.nil_append]

/-- The position is moved at last. -/
theorem isFixup_eq_false (h : Arranged inputs outputs moves) :
    ∀ t ∈ inputs ++ outputs, t.isFixup = false := by
  obtain ⟨call, rest, rfl, hcall, hrest⟩ := h.outputs
  refine List.forall_mem_append.2 ⟨fun t ht => (of_isInput (h.inputs t ht)).2.2.1, ?_⟩
  exact List.forall_mem_cons.2
    ⟨(of_calls hcall).2, fun t ht => (of_isOutput (hrest t ht)).2.2⟩

end Arranged

theorem isInput_flatMap {input : Option StructDef} {inputs : StructDef → List Transfer}
    (h : ∀ d, ∀ t ∈ inputs d, t.isInput = true) :
    ∀ t ∈ input.toList.flatMap inputs, t.isInput = true := by
  intro t ht
  obtain ⟨d, -, ht⟩ := List.mem_flatMap.1 ht
  exact h d t ht

/-! ### The vertex stage -/

theorem arranged_vertex (fixup : Fixup) (input output : Option StructDef) :
    Arranged (input.toList.flatMap Transfer.attributeInputs) (Transfer.vertexOutputs output)
      (Transfer.fixups fixup) := by
  refine ⟨isInput_flatMap fun _ => Transfer.isInput_attributeInputs, ?_,
    Transfer.isFixup_fixups fixup⟩
  cases output with
  | none => exact ⟨_, _, rfl, rfl, List.forall_mem_nil _⟩
  | some d =>
    refine ⟨_, _, rfl, rfl, List.forall_mem_append.2 ⟨?_, ?_⟩⟩
    · exact List.forall_mem_map.2 fun _ _ => rfl
    · exact List.forall_mem_map.2 fun _ _ => rfl

/-- The result of a vertex stage has one position. -/
theorem filter_position (h : f.Returns m .vertex) : ∃ t,
    (Transfer.vertexOutputs (m.output? f)).filter (·.assigned? = some "gl_Position") = [t] ∧
      TakesPosition m f t := by
  cases h with
  | position hresult =>
    have hnone : m.output? f = none := by rw [Model.output?, hresult]; rfl
    rw [hnone]
    exact ⟨_, rfl, .result hresult⟩
  | @vertex name d position hresult hd hpositions hty htargets =>
    have houtput : m.output? f = some d := by rw [Model.output?, hresult]; exact hd.found
    have hone : d.positions = [position] := hpositions
    refine ⟨_, ?_, .field houtput hone⟩
    rw [houtput, Transfer.vertexOutputs, hone, List.filter_cons_of_neg
      (by simp [Transfer.assigned?]), List.filter_append,
      Transfer.filter_assigned_varyingOutputs (by decide)]
    rfl

/-- The wiring of a vertex stage is complete. -/
theorem wiresVertex (hin : ∀ d, m.input? f = some d → d.fields.Nodup)
    (hout : ∀ d, m.output? f = some d → d.fields.Nodup) (hreturns : f.Returns m .vertex) :
    WiresVertex m f fixup (vertexPorts (m.input? f) (m.output? f))
      (vertexTransfers fixup (m.input? f) (m.output? f)) := by
  have h := arranged_vertex fixup (m.input? f) (m.output? f)
  refine ⟨h.callsOnce, fun d hd l field hl => ⟨?_, ?_⟩, ?_, ⟨_, rfl, h.isFixup_eq_false⟩,
    fun d hd l field hl => ⟨?_, ?_, ?_⟩, fun s hs => ?_⟩
  · rw [vertexPorts, List.filter_append, StageVariable.filter_attribute_varyings, hd,
      Option.toList_some, List.flatMap_singleton,
      StageVariable.filter_attributes (hin d hd) hl, List.append_nil]
  · rw [vertexTransfers, h.filter_filled, hd, Option.toList_some, List.flatMap_singleton,
      Transfer.filter_attributeInputs (hin d hd) (List.mem_of_getElem? hl)]
  · rw [vertexTransfers, h.filter_assigned (by decide) (by decide)]
    exact filter_position hreturns
  · rw [vertexPorts, List.filter_append,
      StageVariable.filter_other StageVariable.declared_attributes (by decide), hd,
      Option.toList_some, List.flatMap_singleton, StageVariable.filter_varyings "out" hl,
      List.nil_append]
  · rw [vertexTransfers, h.filter_assigned (by simp) (moved_varyingName l), hd,
      Transfer.filter_vertexOutputs hl]
  · rw [vertexTransfers, h.filter_taken, hd, Transfer.filter_taken_vertexOutputs (hout d hd) hl]
  · rcases List.mem_append.1 hs with hs | hs
    · exact .inl (StageVariable.exists_of_mem_attributes hs)
    · exact .inr (StageVariable.exists_of_mem_varyings hs)

/-! ### The fragment stage -/

theorem arranged_fragment (result : Ty) (input output : Option StructDef) :
    Arranged (input.toList.flatMap Transfer.varyingInputs)
      (Transfer.fragmentOutputs result output) [] := by
  refine ⟨isInput_flatMap fun _ => Transfer.isInput_varyingInputs, ?_, List.forall_mem_nil _⟩
  cases output with
  | none =>
    rw [Transfer.fragmentOutputs]
    split
    · exact ⟨_, _, rfl, rfl, List.forall_mem_nil _⟩
    · exact ⟨_, _, rfl, rfl, List.forall_mem_nil _⟩
  | some d => exact ⟨_, _, rfl, rfl, List.forall_mem_map.2 fun _ _ => rfl⟩

/-- The position is not moved in a fragment stage. -/
theorem fragmentTransfers_eq (result : Ty) (input output : Option StructDef) :
    fragmentTransfers result input output =
      input.toList.flatMap Transfer.varyingInputs ++ Transfer.fragmentOutputs result output ++ [] :=
  (List.append_nil _).symm

/-- No two fields of a result go to one render target. -/
theorem nodup_targets_of_returns (h : f.Returns m .fragment) {d : StructDef}
    (hd : m.output? f = some d) : (d.fields.filterMap Signature.target?).Nodup := by
  cases h with
  | nothing hresult => simp [Model.output?, hresult, Ty.structName?] at hd
  | color hresult => simp [Model.output?, hresult, Ty.structName?] at hd
  | @fragment _ d' hresult hinterface _ _ hsemantics =>
    have houtput : m.output? f = some d' := by
      rw [Model.output?, hresult]
      exact hinterface.found
    obtain rfl := Option.some.inj (houtput.symm.trans hd)
    exact nodup_targets_of_semantics hsemantics

/-- A stage that returns no struct returns a color or nothing. -/
theorem result_of_output?_eq_none (h : f.Returns m .fragment) (hnone : m.output? f = none) :
    f.result = .void ∨ f.result = .float4 := by
  cases h with
  | nothing hresult => exact .inl hresult
  | color hresult => exact .inr hresult
  | fragment hresult hinterface =>
    rw [Model.output?, hresult] at hnone
    cases hinterface.found.symm.trans hnone

/-- A render target is for a field of the result, or for the color that the result is. -/
theorem exists_of_mem_targets (h : f.Returns m .fragment) {s : StageVariable}
    (hs : s ∈ StageVariable.targets f.result (m.output? f)) :
    (∃ d n field, m.output? f = some d ∧ field ∈ d.fields ∧
      field.semantic = some (.colorTarget n) ∧ s = .target n field) ∨
    f.result = .float4 ∧ s = .color := by
  cases houtput : m.output? f with
  | some d =>
    rw [houtput] at hs
    obtain ⟨⟨field, n⟩, hentry, rfl⟩ := List.mem_map.1 hs
    obtain ⟨hfield, hn⟩ := mem_targets.1 hentry
    exact .inl ⟨d, n, field, rfl, hfield, hn, rfl⟩
  | none =>
    rw [houtput] at hs
    rcases result_of_output?_eq_none h houtput with hresult | hresult
    · rw [hresult] at hs
      cases hs
    · rw [hresult] at hs
      exact .inr ⟨hresult, List.mem_singleton.1 hs⟩

/-- The wiring of a fragment stage is complete. -/
theorem wiresFragment (hin : ∀ d, m.input? f = some d → d.fields.Nodup)
    (hout : ∀ d, m.output? f = some d → d.fields.Nodup) (hreturns : f.Returns m .fragment) :
    WiresFragment m f (fragmentPorts f.result (m.input? f) (m.output? f))
      (fragmentTransfers f.result (m.input? f) (m.output? f)) := by
  have h := arranged_fragment f.result (m.input? f) (m.output? f)
  have hfilled : ∀ d, m.input? f = some d → ∀ field value,
      (field, value) ∈ Transfer.varyingValues 0 d.fields →
      (fragmentTransfers f.result (m.input? f) (m.output? f)).filter (·.filled? = some field) =
        [.fill field value] := fun d hd field value hv => by
    rw [fragmentTransfers_eq, h.filter_filled, hd, Option.toList_some, List.flatMap_singleton,
      Transfer.filter_varyingInputs (hin d hd) hv]
  have hcolor : f.result = .float4 → m.output? f = none := fun hresult => by
    rw [Model.output?, hresult]
    rfl
  refine ⟨fragmentTransfers_eq _ _ _ ▸ h.callsOnce, fun d hd l field hl => ⟨?_, ?_⟩,
    fun d hd field hfield => ?_, fun d hd field hfield n hn => ?_,
    fun hresult => ⟨?_, ?_⟩, fun s hs => ?_⟩
  · rw [fragmentPorts, List.filter_append, hd, Option.toList_some, List.flatMap_singleton,
      StageVariable.filter_varyings "in" hl,
      StageVariable.filter_other (StageVariable.declared_targets f.result) (by decide),
      List.append_nil]
  · have hvalue := Transfer.mem_varyingValues 0 hl
    rw [Nat.zero_add] at hvalue
    exact hfilled d hd field _ hvalue
  · obtain ⟨hmem, hposition⟩ := List.mem_filter.1 hfield
    exact hfilled d hd field _
      (Transfer.mem_varyingValues_of_position 0 hmem (of_decide_eq_true hposition))
  · have htarget : (field, n) ∈ targets d := mem_targets.2 ⟨hfield, hn⟩
    have hindices := nodup_targets_of_returns hreturns hd
    refine ⟨?_, ?_, ?_⟩
    · rw [fragmentPorts, List.filter_append,
        StageVariable.filter_other (StageVariable.declared_varyings "in") (by decide),
        List.nil_append, hd, StageVariable.filter_targets hindices htarget]
    · rw [fragmentTransfers_eq, h.filter_assigned (by simp) (moved_targetName n), hd,
        Transfer.filter_fragmentOutputs hindices htarget]
    · rw [fragmentTransfers_eq, h.filter_taken, hd,
        Transfer.filter_taken_fragmentOutputs (hout d hd) htarget]
  · rw [fragmentPorts, List.filter_append,
      StageVariable.filter_other (StageVariable.declared_varyings "in") (by decide),
      List.nil_append, hcolor hresult, hresult]
    rfl
  · rw [fragmentTransfers_eq, h.filter_assigned (by simp) (moved_targetName 0), hcolor hresult,
      hresult]
    rfl
  · rcases List.mem_append.1 hs with hs | hs
    · exact .inl (StageVariable.exists_of_mem_varyings hs)
    · exact .inr (exists_of_mem_targets hreturns hs)

end Stages

/-! ## Sources -/

section Sources

variable {p : Program} {v : Version} {fixup : Option Fixup} {m : Model} {stage : Stage}
  {f : Function} {code : Code}

theorem isStageVariable_resourceGlobals (b : Binding) :
    ∀ g ∈ resourceGlobals v b, g.isStageVariable = false := by
  rw [resourceGlobals]
  split
  · simp [Global.isStageVariable]
  · split <;> simp [Global.isStageVariable]

theorem isStageVariable_ofFunction (c : Context) (g : Function) :
    (Global.ofFunction c g).isStageVariable = false := by
  rw [Global.ofFunction]
  split <;> rfl

/-- The definitions of a stage are no variables that it reads or writes. -/
theorem isStageVariable_definitions (v : Version) (c : Context) :
    ∀ g ∈ definitions v c, g.isStageVariable = false := by
  refine List.forall_mem_append.2 ⟨List.forall_mem_append.2 ⟨?_, ?_⟩, ?_⟩
  · exact List.forall_mem_map.2 fun _ _ => rfl
  · intro g hg
    obtain ⟨b, -, hg⟩ := List.mem_flatMap.1 hg
    exact isStageVariable_resourceGlobals b g hg
  · exact List.forall_mem_map.2 fun g _ => isStageVariable_ofFunction _ g

/-- The variables of a stage are declared behind its definitions. -/
theorem exists_declares_append_main (hv : v ∈ versions)
    (h : (language v fixup).code m stage = .ok code) (hf : m.EndsWith stage f) :
    ∃ before main,
      Code.Declares (Piece v (fixup.getD v.defaultFixup) ⟨m, stage, none⟩) before
        (definitions v ⟨m, stage, none⟩) ∧
      DefinesMain v (fixup.getD v.defaultFixup) ⟨m, stage, none⟩ f main ∧
      code = before ++ main := by
  obtain ⟨pieces, hpieces, rfl⟩ :=
    (writesInOrder hv fixup).exists_pieces hf h
  have hitems := (List.forall₂_take_append _ _ _ hpieces.flip).flip
  have hdefinitions := Code.Declares.flatten hitems fun _ _ =>
    Piece.item (v := v) (c := ⟨m, stage, none⟩)
  rw [flatMap_itemGlobals] at hdefinitions
  have hlast := (List.forall₂_drop_append _ _ _ hpieces.flip).flip
  obtain ⟨main, rest, hmain, hrest, hdrop⟩ := List.forall₂_cons_left_iff.1 hlast
  obtain rfl := List.forall₂_nil_left_iff.1 hrest
  have hflatten : pieces.flatten = (pieces.take (m.items stage).length).flatten ++ main := by
    conv_lhs => rw [← List.take_append_drop (m.items stage).length pieces, hdrop]
    simp
  cases hmain with
  | main hmain =>
    refine ⟨_, main, (declares_header hv).append hdefinitions, hmain, ?_⟩
    rw [hflatten, List.append_assoc]
    rfl

/-- A source wires its stage with given variables and lines of `main`. -/
structure Wires (v : Version) (fixup : Option Fixup) (m : Model) (stage : Stage) (f : Function)
    (ports : List StageVariable) (transfers : List Transfer) : Prop where
  /-- The variables are declared behind the definitions of the stage, which are no such
  variables, and `main` is the last of the source. -/
  written : ∃ args declarations, f.params.mapM (argument v ⟨m, stage, none⟩) = .ok args ∧
    Language.collect (StageVariable.code v) ports = .ok declarations ∧
    (∀ g ∈ definitions v ⟨m, stage, none⟩, g.isStageVariable = false) ∧
    ∀ text, (language v fixup).generate m stage = .ok text → ∃ before code,
      (language v fixup).code m stage = .ok code ∧ text = code.text 0 ∧
      Code.Declares (Piece v (fixup.getD v.defaultFixup) ⟨m, stage, none⟩) before
        (definitions v ⟨m, stage, none⟩) ∧
      code = before ++ (declarations ++ Code.blank ++
        mainFunction (transfers.flatMap (Transfer.code v (callOf v m stage f args))))
  /-- There is a source where the version declares the resources of the stage. -/
  source : (∀ b ∈ m.resourcesFor stage, v.declares stage b.ty.kind = true) →
    ∃ text, (language v fixup).generate m stage = .ok text

/-- A stage is wired by the code that stands around its entry point. -/
theorem wires_of_writable (hv : v ∈ versions) (hw : m.Writable p stage f)
    (hf : m.EndsWith stage f) (hseparator : separator stage = Code.blank) :
    Wires v fixup m stage f (ports ⟨m, stage, none⟩ f)
      (transfers (fixup.getD v.defaultFixup) ⟨m, stage, none⟩ f) := by
  have hcontext : (Context.mk m stage none).model.Writable p stage f := hw
  obtain ⟨_, hentry⟩ := exists_entry hv hcontext (fixup.getD v.defaultFixup)
  obtain ⟨_, main, -, hmain, -⟩ := entry_eq_ok hentry
  obtain ⟨hargs, hdeclarations⟩ := definesMain_of_stageMain hmain
  refine ⟨⟨_, _, hargs, hdeclarations, isStageVariable_definitions v _, fun text htext => ?_⟩,
    exists_source hv hw fixup⟩
  obtain ⟨code, hcode, rfl⟩ := Language.generate_eq_ok.1 htext
  obtain ⟨before, _, hbefore, hbehind, rfl⟩ :=
    exists_declares_append_main hv hcode hf
  obtain ⟨hargs', hdeclarations'⟩ := hbehind
  obtain rfl := Except.ok.inj (hargs.symm.trans hargs')
  obtain rfl := Except.ok.inj (hdeclarations.symm.trans hdeclarations')
  exact ⟨before, _, hcode, rfl, hbefore, by rw [hseparator]⟩

end Sources

end Glsl

/-! ## Models -/

/-- The stages of a model are wired in GLSL. -/
structure Model.WiresStages (set : EntrySet) (m : Model) : Prop where
  /-- A struct that a stage reads is in the model. -/
  input : ∀ stage f name, m.entryFunction? stage = some f → f.inputStruct? = some name →
    ∃ d, m.input? f = some d
  /-- A struct that a stage returns is in the model. -/
  output : ∀ stage f name, m.entryFunction? stage = some f → f.result = .struct name →
    ∃ d, m.output? f = some d
  vertex : ∀ entry, set.vertex = some entry → ∃ f, m.entryFunction? .vertex = some f ∧
    m.function? entry = some f ∧ ∀ v ∈ Glsl.versions, ∀ fixup, ∃ ports transfers,
      Glsl.Wires v fixup m .vertex f ports transfers ∧
      Glsl.WiresVertex m f (fixup.getD v.defaultFixup) ports transfers
  fragment : ∀ entry, set.fragment = some entry → ∃ f, m.entryFunction? .fragment = some f ∧
    m.function? entry = some f ∧ ∀ v ∈ Glsl.versions, ∀ fixup, ∃ ports transfers,
      Glsl.Wires v fixup m .fragment f ports transfers ∧
      Glsl.WiresFragment m f ports transfers

/-- A parameter that is a struct is one of the model. -/
theorem Parameter.Fits.exists_struct {m : Model} {param : Parameter} {stage : Stage} {name : String}
    (h : param.Fits m stage) (hname : param.ty.structName? = some name) :
    ∃ d, m.struct? name = some d := by
  cases h with
  | vertexBuiltin _ _ hty | computeBuiltin _ _ hty =>
    rw [hty] at hname
    cases hname
  | input _ _ hty hd =>
    rw [hty] at hname
    cases hname
    exact ⟨_, hd.found⟩

namespace Program

variable {p : Program} {set : EntrySet} {m : Model}

namespace BuiltFrom

variable {reached : Expanded Function} {uses : List StageUse}

/-- The fields of a struct of the model differ. -/
theorem nodup_fields_of_bind (h : BuiltFrom p set m reached uses) {name : Option String}
    {d : StructDef} (hd : name.bind m.struct? = some d) : d.fields.Nodup := by
  obtain ⟨name, -, hfind⟩ := Option.bind_eq_some_iff.1 hd
  exact (h.model_exact.hasStruct d (List.mem_of_find?_eq_some hfind)).nodup_fields.of_map _

end BuiltFrom

end Program

end Shading
