import Shading.Proofs.Model.Checks

/-!
# Varyings of a model

The varyings that the fragment stage of a model reads are written by its vertex stage
at the same locations, with the same types and linkage (`BuiltFrom.reads_written`).
-/

namespace Shading

/-- Nothing is left unlinked exactly when every varying read is written at its
location. -/
theorem unlinked?_eq_none {written read : List Field} {start : Nat} :
    unlinked? written start read = none ↔ ∀ l field, read[l]? = some field →
      ∃ w, written[start + l]? = some w ∧ w.links field = true := by
  induction read generalizing start with
  | nil => simp [unlinked?]
  | cons field rest ih =>
    have hhead : (written[start]?).any (·.links field) = true ↔
        ∃ w, written[start]? = some w ∧ w.links field = true := by
      cases written[start]? <;> simp
    simp only [unlinked?]
    split
    · next hany =>
      rw [ih]
      constructor
      · intro h l g hg
        cases l with
        | zero => cases hg; exact hhead.1 hany
        | succ l =>
          obtain ⟨w, hw, hlinks⟩ := h l g hg
          exact ⟨w, by rwa [Nat.add_right_comm] at hw, hlinks⟩
      · intro h l g hg
        obtain ⟨w, hw, hlinks⟩ := h (l + 1) g hg
        exact ⟨w, by rwa [Nat.add_right_comm], hlinks⟩
    · next hany =>
      simp only [reduceCtorEq, false_iff]
      exact fun h => hany (hhead.2 (h 0 field rfl))

/-- Varyings that are linked have one type and one linkage. -/
theorem Field.links_iff {written read : Field} :
    written.links read = true ↔ written.ty = read.ty ∧ written.linkage = read.linkage := by
  simp [Field.links]

/-- What a vertex stage returns for what a fragment stage reads. -/
inductive StructDef.ReadFrom (m : Model) (vertex : Function) (input : StructDef) : Prop where
  /-- A position alone carries no varyings. -/
  | position : vertex.result = .float4 → input.varyings = [] → input.ReadFrom m vertex
  | struct {name : String} {output : StructDef} : vertex.result = .struct name →
      m.struct? name = some output →
      (∀ field ∈ output.fields, Signature.target? field = none) →
      (∀ (l : Nat) (field : Field), input.varyings[l]? = some field →
        ∃ w : Field, output.varyings[l]? = some w ∧ w.links field = true) →
      (∀ field ∈ output.fields, field.ty.isInterface = true) → input.ReadFrom m vertex

namespace Program.BuiltFrom

variable {p : Program} {set : EntrySet} {m : Model} {reached : Expanded Function}
  {uses : List StageUse}

/-- A struct that a stage uses is found in the model. -/
theorem struct?_of_get? (h : BuiltFrom p set m reached uses) {name : String} {d : StructDef}
    (hd : StructTable.get? (uses.flatMap StageUse.structs) name = some d) :
    m.struct? name = some d := by
  obtain ⟨hname, hhas⟩ := (get?_structs_iff h.hasStruct_table).1 hd
  obtain ⟨e, he, hfind, rfl⟩ := exists_find?_of_mem_map ((h.names_structs.2.1 name).2 hname)
  rw [hhas.unique (h.model_exact.hasStruct e he)]
  exact hfind

/-- The vertex stage writes what the fragment stage reads. -/
theorem reads_written (h : BuiltFrom p set m reached uses) {v f : String}
    (hv : set.entryName? .vertex = some v) (hf : set.entryName? .fragment = some f)
    {vertex fragment : Function} (hvertex : m.function? v = some vertex)
    (hfragment : m.function? f = some fragment) {name : String}
    (hname : fragment.inputStruct? = some name) :
    ∃ input, m.struct? name = some input ∧ input.ReadFrom m vertex := by
  obtain ⟨_, hcheckVertex⟩ := h.entry_checked hv hvertex
  obtain ⟨_, hcheckFragment⟩ := h.entry_checked hf hfragment
  obtain ⟨param, hparam, hty⟩ := Option.bind_eq_some_iff.1 hname
  -- The parameter that is the input has no semantic, so it was checked as a struct.
  obtain ⟨input, hinput⟩ : ∃ input,
      StructTable.get? (uses.flatMap StageUse.structs) name = some input := by
    have hmem := List.mem_of_find?_eq_some hparam
    have hsemantic := List.find?_some hparam
    obtain ⟨-, htakes⟩ := Signature.Entry.takes_of_check hcheckFragment param hmem
    cases htakes with
    | builtin hb _ _ =>
      cases hs : param.semantic <;> simp_all [Parameter.builtin?]
    | input _ hstruct _ hd _ =>
      rw [hstruct] at hty
      cases hty
      exact ⟨_, hd⟩
  have hlinks := (h.links_checked ((h.entryFunction?_eq hv).trans hvertex)).2 fragment
    ((h.entryFunction?_eq hf).trans hfragment)
  refine ⟨input, h.struct?_of_get? hinput, ?_⟩
  simp only [checkVaryings, hname, Option.bind_some, hinput] at hlinks
  split at hlinks
  · next hnone =>
    have hread := unlinked?_eq_none.1 hnone
    cases Signature.Entry.vertexReturns_of_check hcheckVertex rfl with
    | position hresult =>
      simp only [show vertex.result = .float4 from hresult] at hread
      refine .position hresult (List.eq_nil_iff_forall_not_mem.2 fun field hfield => ?_)
      obtain ⟨l, hl⟩ := List.mem_iff_getElem?.1 hfield
      obtain ⟨w, hw, -⟩ := hread l field hl
      cases hw
    | @struct name output hresult hd hi _ htarget =>
      simp only [show vertex.result = .struct name from hresult, Ty.structName?, Option.bind_some,
        show StructTable.get? (uses.flatMap StageUse.structs) name = some output from hd,
        Option.map_some, Option.getD_some, Nat.zero_add] at hread
      exact .struct hresult (h.struct?_of_get? hd) htarget hread hi.interface
  · cases hlinks

end Program.BuiltFrom

end Shading
