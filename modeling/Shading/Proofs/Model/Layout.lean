import Mathlib.Tactic.Choose
import Shading.Proofs.Elaboration.Types
import Shading.Proofs.Model.Order
import Shading.Proofs.Model.Varyings

/-!
# Layout

A type that host code writes to a buffer is flattened into scalars (`Ty.Flattens`).  A
matrix has 16, an array repeats those of its elements, and a struct has those of its fields
one after the other.

The size of a type follows the structs that its fields mention, by name (`Ty.Opens`).  This
ends because the structs of a model can be numbered so that each mentions structs of lower
numbers only (`Numbered`), and the nesting that `StructTable.sizeWithin` allows for is
never used up (`hostSize_of_numbered`).
-/

namespace Shading

variable {find : String → Option StructDef}

/-! ## Flattened types -/

/-- The scalars that a type holds, in order, when structs are found by name. -/
inductive Ty.Flattens (find : String → Option StructDef) : Ty → List ScalarKind → Prop where
  | scalar {kind} : Flattens find (.scalar kind) [kind]
  | vector {kind size} : Flattens find (.vector kind size) (List.replicate size.toNat kind)
  | matrix : Flattens find .matrix (List.replicate 16 .float)
  | struct {name d} {parts : Field → List ScalarKind} : find name = some d →
      (∀ field ∈ d.fields, Flattens find field.ty (parts field)) →
      Flattens find (.struct name) (d.fields.flatMap parts)
  | array {element length parts} : Flattens find element parts →
      Flattens find (.array element length) (List.replicate length.toNat parts).flatten

/-- A type holds its scalars in one order. -/
theorem Ty.Flattens.unique {ty : Ty} {parts parts' : List ScalarKind}
    (h : ty.Flattens find parts) (h' : ty.Flattens find parts') : parts = parts' := by
  induction h generalizing parts' with
  | scalar | vector | matrix => cases h'; rfl
  | array _ ih =>
    cases h' with
    | array h' => rw [ih h']
  | struct hd _ ih =>
    cases h' with
    | struct hd' hfields' =>
      obtain rfl := Option.some.inj (hd.symm.trans hd')
      exact List.flatMap_congr fun field hfield => ih field hfield (hfields' field hfield)

/-- The types whose sizes the size of a type is computed from. -/
inductive Ty.Opens (find : String → Option StructDef) : Ty → Ty → Prop where
  | element {element length} : Opens find (.array element length) element
  | field {name d field} : find name = some d → field ∈ d.fields →
      Opens find (.struct name) field.ty

/-! ## Numbered structs -/

/-- Structs that are found by name have fields of plain types, and they mention structs that
are found and have lower numbers. -/
structure Numbered (p : Program) (find : String → Option StructDef) (number : String → Nat) :
    Prop where
  plain : ∀ name d, find name = some d → ∀ field ∈ d.fields,
    field.ty.Plain p ∧ field.ty.isVoid = false
  lower : ∀ name d, find name = some d → ∀ other, d.Mentions other →
    (find other).isSome = true ∧ number other < number name

/-- A type of host code whose structs are found and have numbers below a bound. -/
structure Ty.Below (p : Program) (find : String → Option StructDef) (number : String → Nat)
    (bound : Nat) (ty : Ty) : Prop where
  plain : ty.Plain p
  value : ty.isVoid = false
  below : ∀ name, ty.Mentions name → (find name).isSome = true ∧ number name < bound

namespace Numbered

variable {p : Program} {number : String → Nat} {bound : Nat}

theorem below_field (h : Numbered p find number) {name : String} {d : StructDef}
    (hd : find name = some d) {field : Field} (hf : field ∈ d.fields) :
    field.ty.Below p find number (number name) where
  plain := (h.plain name d hd field hf).1
  value := (h.plain name d hd field hf).2
  below := fun other hm => h.lower name d hd other ⟨field, hf, hm⟩

theorem below_element {element : Ty} {length : UInt32}
    (h : (Ty.array element length).Below p find number bound) :
    element.Below p find number bound := by
  cases h.plain with
  | array hp hv _ _ => exact ⟨hp, hv, fun name hm => h.below name (.array hm)⟩

/-- What holds of a struct when it holds of its fields, and of an array when it holds of its
elements, holds of every type of host code. -/
theorem induct {motive : Ty → Prop} (h : Numbered p find number)
    (scalar : ∀ kind, motive (.scalar kind)) (vector : ∀ kind size, motive (.vector kind size))
    (matrix : motive .matrix)
    (struct : ∀ name d, find name = some d → (∀ field ∈ d.fields, motive field.ty) →
      motive (.struct name))
    (array : ∀ element length, motive element → motive (.array element length)) {ty : Ty}
    (hty : ty.Below p find number bound) : motive ty := by
  induction bound using Nat.strongRecOn generalizing ty with
  | ind bound ih =>
    obtain ⟨hplain, hvalue, hbelow⟩ := hty
    induction hplain with
    | void => cases hvalue
    | scalar => exact scalar _
    | vector => exact vector _ _
    | matrix => exact matrix
    | @struct name =>
      obtain ⟨hfound, hlt⟩ := hbelow name .struct
      obtain ⟨d, hd⟩ := Option.isSome_iff_exists.1 hfound
      exact struct name d hd fun field hf => ih _ hlt (h.below_field hd hf)
    | array _ hv _ _ ihelement =>
      exact array _ _ (ihelement hv fun name hm => hbelow name (.array hm))

/-- Every type of host code can be flattened. -/
theorem exists_flattens (h : Numbered p find number) {ty : Ty}
    (hty : ty.Below p find number bound) : ∃ parts, ty.Flattens find parts := by
  refine h.induct (motive := fun ty => ∃ parts, ty.Flattens find parts) ?_ ?_ ?_ ?_ ?_ hty
  · exact fun _ => ⟨_, .scalar⟩
  · exact fun _ _ => ⟨_, .vector⟩
  · exact ⟨_, .matrix⟩
  · intro name d hd hfields
    have hparts : ∀ field, ∃ parts, field ∈ d.fields → field.ty.Flattens find parts := by
      intro field
      by_cases hf : field ∈ d.fields
      · exact (hfields field hf).imp fun _ hparts _ => hparts
      · exact ⟨[], fun hmem => absurd hmem hf⟩
    choose parts hparts using hparts
    exact ⟨_, .struct hd fun field hf => hparts field hf⟩
  · intro element length ⟨parts, hparts⟩
    exact ⟨_, .array hparts⟩

/-- No chain of types that open each other is endless. -/
theorem acc_opens (h : Numbered p find number) {ty : Ty} (hty : ty.Below p find number bound) :
    Acc (fun b a => a.Opens find b) ty := by
  refine h.induct ?_ ?_ ?_ ?_ ?_ hty
  · exact fun _ => .intro _ nofun
  · exact fun _ _ => .intro _ nofun
  · exact .intro _ nofun
  · intro name d hd hfields
    refine .intro _ fun ty hopens => ?_
    cases hopens with
    | field hd' hf =>
      obtain rfl := Option.some.inj (hd.symm.trans hd')
      exact hfields _ hf
  · intro element length helement
    refine .intro _ fun ty hopens => ?_
    cases hopens
    exact helement

/-- The sizes of fields add up to the size of what they are flattened into. -/
theorem foldl_size {fields : List Field} {size : Field → Nat} {parts : Field → List ScalarKind}
    (hsize : ∀ field ∈ fields, size field = 4 * (parts field).length) (start : Nat) :
    fields.foldl (fun total field => total + size field) start =
      start + 4 * (fields.flatMap parts).length := by
  induction fields generalizing start with
  | nil => rfl
  | cons field fields ih =>
    rw [List.foldl_cons, ih fun f hf => hsize f (.tail _ hf), hsize field (.head _),
      List.flatMap_cons, List.length_append]
    omega

/-- A type takes four bytes for each of its scalars, when structs may nest as deep as they
have numbers. -/
theorem hostSize_eq (h : Numbered p find number) {table : StructTable}
    (ht : ∀ name, table.get? name = find name) {ty : Ty} {parts : List ScalarKind}
    (hparts : ty.Flattens find parts) (hty : ty.Below p find number bound) {depth : Nat}
    (hdepth : bound ≤ depth) : ty.hostSize (table.sizeWithin depth) = 4 * parts.length := by
  induction hparts generalizing bound depth with
  | scalar => rfl
  | vector => simp [Ty.hostSize]
  | matrix => rfl
  | @struct name d parts hd _ ih =>
    have hlt := (hty.below name .struct).2
    obtain ⟨depth, rfl⟩ : ∃ k, depth = k + 1 := ⟨depth - 1, by omega⟩
    simp only [Ty.hostSize, StructTable.sizeWithin, ht, hd]
    rw [foldl_size fun field hf => ih field hf (h.below_field hd hf) (Nat.le_of_lt_succ
      (Nat.lt_of_lt_of_le hlt hdepth)), Nat.zero_add]
  | @array element length parts _ ih =>
    have hlength : (List.replicate length.toNat parts).flatten.length =
        length.toNat * parts.length := by simp
    rw [Ty.hostSize, ih (below_element hty) hdepth, hlength, Nat.mul_assoc,
      Nat.mul_comm parts.length]

end Numbered

/-! ## Structs of a model -/

/-- Where a struct stands in the order of a model. -/
def Model.number (m : Model) (name : String) : Nat := m.structs.findIdx (·.name == name)

/-- A table finds the structs of a model. -/
def StructTable.Finds (table : StructTable) (m : Model) : Prop :=
  ∀ name, table.get? name = m.struct? name

/-- A table that finds the structs of a model has an entry for each. -/
theorem StructTable.Finds.length_le {table : StructTable} {m : Model} (h : table.Finds m)
    (ho : (m.structs.map (·.name)).Nodup) : m.structs.length ≤ table.length := by
  have hsub : m.structs.map (·.name) ⊆ table.map Prod.fst := by
    intro name hname
    obtain ⟨d, -, hfind, rfl⟩ := exists_find?_of_mem_map hname
    obtain ⟨before, after, rfl, -⟩ := List.lookup_eq_some_iff.1 ((h d.name).trans hfind)
    simp
  simpa using ho.length_le_of_subset hsub

namespace Program.BuiltFrom

variable {p : Program} {set : EntrySet} {m : Model} {reached : Expanded Function}
  {uses : List StageUse}

/-- The table of the structs that the stages use finds the structs of the model. -/
theorem table_finds (h : BuiltFrom p set m reached uses) :
    StructTable.Finds (uses.flatMap StageUse.structs) m := by
  intro name
  cases hd : StructTable.get? (uses.flatMap StageUse.structs) name with
  | some d => exact (h.struct?_of_get? hd).symm
  | none =>
    cases hm : m.struct? name with
    | none => rfl
    | some d =>
      have hname : d.name = name := by simpa using List.find?_some hm
      have hmem := (h.names_structs.2.1 name).1
        (hname ▸ List.mem_map_of_mem (List.mem_of_find?_eq_some hm))
      rw [← isSome_get?_structs_iff h.hasStruct_table, hd] at hmem
      cases hmem

/-- The structs of a model are numbered by their order. -/
theorem numbered (h : BuiltFrom p set m reached uses) : Numbered p m.struct? m.number where
  plain := by
    intro name d hd field hf
    have hhas := h.model_exact.hasStruct d (List.mem_of_find?_eq_some hd)
    exact ⟨hhas.plain hf, hhas.value hf⟩
  lower := by
    intro name d hd other hm
    obtain ⟨hname, before, after, hsplit, hbefore⟩ := List.find?_eq_some_iff_append.1 hd
    have hmem := h.structs_beforeUse.behind before d after hsplit other hm
    obtain ⟨e, he, hfind, rfl⟩ := exists_find?_of_mem_map hmem
    constructor
    · rw [Model.struct?, hsplit, List.find?_append, hfind]
      rfl
    · rw [Model.number, Model.number, hsplit]
      calc (before ++ d :: after).findIdx (·.name == e.name)
          < before.length := by
            have hlt : before.findIdx (·.name == e.name) < before.length :=
              List.findIdx_lt_length_of_exists ⟨e, he, by simp⟩
            rwa [List.findIdx_append, if_pos hlt]
        _ = (before ++ d :: after).findIdx (·.name == name) := by
            have hnone : before.findIdx (·.name == name) = before.length :=
              List.findIdx_eq_length.2 fun a ha => by simpa using hbefore a ha
            rw [List.findIdx_append, hnone, if_neg (Nat.lt_irrefl _), List.findIdx_cons, hname]
            simp

/-- The element of a buffer mentions structs of the model only. -/
theorem below_element (h : BuiltFrom p set m reached uses) {b : Binding} (hb : b ∈ m.resources)
    {element : Ty} (he : b.ty.element = some element) :
    element.Below p m.struct? m.number m.structs.length := by
  have hresource := h.model_exact.hasResource b hb
  obtain ⟨hplain, hvalue⟩ := hresource.declares.element he
  refine ⟨hplain, hvalue, fun name hm => ?_⟩
  obtain ⟨stage, hstage, hused⟩ :=
    (h.model_exact.resources b.name).1 (List.mem_map_of_mem hb)
  obtain ⟨entry, hentry⟩ := Option.isSome_iff_exists.1 (EntrySet.mem_stages.1 hstage)
  have hexact := h.model_exact.usage stage entry hentry
  have hneeds : p.Needs entry name := .element ((hexact.resources _).1 hused) hresource he hm
  have hname := (h.model_exact.structs name).2 ⟨stage, hstage, (hexact.structs _).2 (.seed hneeds)⟩
  obtain ⟨d, hd, hfind, rfl⟩ := exists_find?_of_mem_map hname
  exact ⟨Option.isSome_iff_exists.2 ⟨d, hfind⟩, List.findIdx_lt_length_of_exists ⟨d, hd, by simp⟩⟩

end Program.BuiltFrom

end Shading
