import Shading.Elaboration.Function
import Shading.Proofs.Model.Building

/-!
# Types of elaborated code

A written type *denotes* a type when each part of it has a counterpart
(`Program.Denotes`), and elaboration finds exactly the type that is denoted
(`elaborateType_eq_ok`).  Every type that is denoted is `Plain`: it is put together
from scalars, vectors, matrices and declared structs.  The types of elaborated
expressions are the plain ones and those of resources (`WellFormed`).
-/

namespace Shading

/-! ## Well-formed types -/

/-- A type that is not, and has no part that is, a resource.  Vectors have two to four
components, structs are declared, and arrays have elements of a type of their own. -/
inductive Ty.Plain (p : Program) : Ty → Prop where
  | void : Plain p .void
  | scalar {kind} : Plain p (.scalar kind)
  | vector {kind size} : 2 ≤ size → size ≤ 4 → Plain p (.vector kind size)
  | matrix : Plain p .matrix
  | struct {name d} : p.struct? name = some d → Plain p (.struct name)
  | array {element length} : Plain p element → element.isVoid = false →
      element.isArray = false → length ≠ 0 → Plain p (.array element length)

/-- A type that an expression can have: a plain one, or that of a resource. -/
inductive Ty.WellFormed (p : Program) : Ty → Prop where
  | plain {ty} : ty.Plain p → WellFormed p ty
  | resource {kind} : kind.isBuffer = false → WellFormed p (.resource kind .readOnly)
  | buffer {kind element access} : kind.isBuffer = true → element.Plain p →
      element.isVoid = false → (access = .readWrite → kind = .structuredBuffer) →
      WellFormed p (.resourceOf kind element access)

/-- Of the well-formed types, those that are not resources are plain. -/
theorem Ty.WellFormed.plain_of_isResource {p : Program} {ty : Ty} (h : ty.WellFormed p)
    (hr : ty.isResource = false) : ty.Plain p := by
  cases h with
  | plain h => exact h
  | resource => cases hr
  | buffer => cases hr

/-! ## Denotation -/

namespace Program

variable {p : Program}

/-- A written type denotes a type. -/
inductive Denotes (p : Program) : Surface.TypeExpr → Ty → Prop where
  | void : Denotes p .void .void
  | scalar {kind} : Denotes p (.scalar kind) (.scalar kind)
  | vector {kind size} : 2 ≤ size → size ≤ 4 → Denotes p (.vector kind size) (.vector kind size)
  | matrix : Denotes p (.matrix 4 4) .matrix
  | named {name d} : p.struct? name = some d → Denotes p (.named name) (.struct name)
  | array {written element length} : Denotes p written element → element.isVoid = false →
      element.isArray = false → length ≠ 0 →
      Denotes p (.array written length) (.array element length)

theorem Denotes.plain {written : Surface.TypeExpr} {ty : Ty} (h : p.Denotes written ty) :
    ty.Plain p := by
  induction h with
  | void => exact .void
  | scalar => exact .scalar
  | vector h2 h4 => exact .vector h2 h4
  | matrix => exact .matrix
  | named h => exact .struct h
  | array _ hv ha hl ih => exact .array ih hv ha hl

/-- A written type denotes at most one type. -/
theorem Denotes.unique {written : Surface.TypeExpr} {a b : Ty} (ha : p.Denotes written a)
    (hb : p.Denotes written b) : a = b := by
  induction ha generalizing b with
  | array _ _ _ _ ih =>
    cases hb with
    | array hb _ _ _ => rw [ih hb]
  | _ => cases hb; rfl

@[simp] theorem require_eq_ok {symbol : String} {reason : Option ConstructFault} {u : Unit} :
    require symbol reason = .ok u ↔ reason = none := by
  cases reason <;> simp [require, fault]

@[simp] theorem fault_ne_ok {α : Type} {symbol : String} {reason : ConstructFault} {a : α} :
    (fault symbol reason : Except Error α) ≠ .ok a := by simp [fault]

theorem elementFault?_eq_none {element : Ty} {length : UInt32} :
    elementFault? element length = none ↔
      element.isVoid = false ∧ element.isArray = false ∧ length ≠ 0 := by
  rw [elementFault?]
  cases element.isVoid <;> cases element.isArray <;> simp

/-- Elaboration finds the type that is denoted, whatever it is reported against. -/
theorem elaborateType_eq_ok {symbol : String} {written : Surface.TypeExpr} {ty : Ty} :
    p.elaborateType symbol written = .ok ty ↔ p.Denotes written ty := by
  constructor
  · intro h
    induction written generalizing ty with
    | void => cases h; exact .void
    | scalar => cases h; exact .scalar
    | vector kind size =>
      simp only [elaborateType, Bool.and_eq_true, decide_eq_true_eq] at h
      split at h
      · next hsize => cases h; exact .vector hsize.1 hsize.2
      · exact absurd h fault_ne_ok
    | matrix rows columns =>
      simp only [elaborateType, Bool.and_eq_true, decide_eq_true_eq] at h
      split at h
      · next hshape =>
        obtain ⟨rfl, rfl⟩ := hshape
        cases h
        exact .matrix
      · exact absurd h fault_ne_ok
    | named name =>
      simp only [elaborateType] at h
      cases hd : p.struct? name with
      | none => simp [hd] at h
      | some d =>
        simp only [hd, Option.isSome_some, if_true, Except.ok.injEq] at h
        exact h ▸ .named hd
    | array written length ih =>
      simp only [elaborateType, bind_eq_ok, pure_eq_ok, require_eq_ok,
        elementFault?_eq_none] at h
      obtain ⟨element, he, _, ⟨hv, ha, hl⟩, rfl⟩ := h
      exact .array (ih he) hv ha hl
    | host => exact absurd h fault_ne_ok
  · intro h
    induction h with
    | void => rfl
    | scalar => rfl
    | vector h2 h4 => simp [elaborateType, h2, h4]
    | matrix => rfl
    | named h => simp [elaborateType, h]
    | array _ hv ha hl ih =>
      simp only [elaborateType, bind_eq_ok, pure_eq_ok, require_eq_ok, elementFault?_eq_none]
      exact ⟨_, ih, (), ⟨hv, ha, hl⟩, rfl⟩

/-- A field, a local variable, a parameter or a buffer element is not void. -/
theorem elaborateValueType_eq_ok {symbol : String} {written : Surface.TypeExpr} {ty : Ty} :
    p.elaborateValueType symbol written = .ok ty ↔ p.Denotes written ty ∧ ty.isVoid = false := by
  simp only [elaborateValueType, bind_eq_ok, elaborateType_eq_ok]
  constructor
  · intro h
    obtain ⟨t, ht, h⟩ := h
    split at h
    · exact absurd h fault_ne_ok
    · next hv =>
      obtain rfl := pure_eq_ok.1 h
      exact ⟨ht, by simpa using hv⟩
  · intro h
    obtain ⟨ht, hv⟩ := h
    exact ⟨ty, ht, by simp [hv]⟩

/-! ## Structs -/

/-- A declared field and the field it stands for. -/
structure DenotesField (p : Program) (d : FieldDecl) (field : Field) : Prop where
  name : field.name = d.name
  denotes : p.Denotes d.ty field.ty
  value : field.ty.isVoid = false
  semantic : field.semantic = d.semantic

theorem elaborateFields_denotes {struct : String} {earlier : List String}
    {decls : List FieldDecl} {fields : List Field}
    (h : p.elaborateFields struct earlier decls = .ok fields) :
    List.Forall₂ p.DenotesField decls fields := by
  induction decls generalizing earlier fields with
  | nil => cases h; exact .nil
  | cons d rest ih =>
    simp only [elaborateFields, bind_eq_ok, elaborateValueType_eq_ok] at h
    obtain ⟨_, -, ty, ⟨hden, hv⟩, h⟩ := h
    split at h
    · exact absurd h fault_ne_ok
    · simp only [bind_eq_ok, pure_eq_ok] at h
      obtain ⟨fields, hfields, rfl⟩ := h
      exact .cons ⟨rfl, hden, hv, rfl⟩ (ih hfields)

/-- Fields have names of their own, which no field before them has. -/
theorem nodup_elaborateFields {struct : String} {earlier : List String}
    {decls : List FieldDecl} {fields : List Field}
    (h : p.elaborateFields struct earlier decls = .ok fields) :
    (fields.map (·.name)).Nodup ∧ ∀ field ∈ fields, field.name ∉ earlier := by
  induction decls generalizing earlier fields with
  | nil =>
    cases h
    simp
  | cons d rest ih =>
    simp only [elaborateFields, bind_eq_ok, require_eq_ok, fieldFault?, ite_eq_right_iff,
      reduceCtorEq, imp_false] at h
    obtain ⟨_, hnew, ty, -, h⟩ := h
    split at h
    · exact absurd h fault_ne_ok
    · simp only [bind_eq_ok, pure_eq_ok] at h
      obtain ⟨fields, hfields, rfl⟩ := h
      obtain ⟨hnodup, hearlier⟩ := ih hfields
      simp only [List.mem_append, List.mem_singleton, not_or] at hearlier
      refine ⟨List.nodup_cons.2 ⟨fun hmem => ?_, hnodup⟩, List.forall_mem_cons.2
        ⟨hnew, fun field hfield => (hearlier field hfield).1⟩⟩
      obtain ⟨field, hfield, hname⟩ := List.mem_map.1 hmem
      exact (hearlier field hfield).2 hname

/-- A struct has no two fields of one name. -/
theorem HasStruct.nodup_fields {name : String} {d : StructDef} (h : p.HasStruct name d) :
    (d.fields.map (·.name)).Nodup := by
  obtain ⟨decl, -, hd⟩ := h
  simp only [elaborateStruct, bind_eq_ok, pure_eq_ok] at hd
  obtain ⟨fields, hfields, rfl⟩ := hd
  exact (nodup_elaborateFields hfields).1

/-- The fields of a struct are of plain types. -/
theorem HasStruct.plain {name : String} {d : StructDef} (h : p.HasStruct name d) {field : Field}
    (hf : field ∈ d.fields) : field.ty.Plain p := by
  obtain ⟨decl, -, hd⟩ := h
  simp only [elaborateStruct, bind_eq_ok, pure_eq_ok] at hd
  obtain ⟨fields, hfields, rfl⟩ := hd
  obtain ⟨_, -, hfield⟩ := forall₂_of_mem_right (elaborateFields_denotes hfields) hf
  exact hfield.denotes.plain

/-- No field of a struct is void. -/
theorem HasStruct.value {name : String} {d : StructDef} (h : p.HasStruct name d) {field : Field}
    (hf : field ∈ d.fields) : field.ty.isVoid = false := by
  obtain ⟨decl, -, hd⟩ := h
  simp only [elaborateStruct, bind_eq_ok, pure_eq_ok] at hd
  obtain ⟨fields, hfields, rfl⟩ := hd
  obtain ⟨_, -, hfield⟩ := forall₂_of_mem_right (elaborateFields_denotes hfields) hf
  exact hfield.value

/-! ## Resources -/

/-- What a resource of a program can be. -/
inductive Declares (p : Program) : ResourceTy → Prop where
  | plain {kind} : kind.isBuffer = false → Declares p ⟨kind, none, .readOnly⟩
  | buffer {kind element access} : kind.isBuffer = true → element.Plain p →
      element.isVoid = false → (access = .readWrite → kind = .structuredBuffer) →
      Declares p ⟨kind, some element, access⟩

theorem elaborateResource_declares {d : ResourceDecl} {r : ResourceTy}
    (h : p.elaborateResource d = .ok r) : p.Declares r := by
  simp only [elaborateResource, bind_eq_ok, pure_eq_ok, require_eq_ok, accessFault?] at h
  obtain ⟨element, helement, _, haccess, rfl⟩ := h
  have hwrite : d.access = .readWrite → d.kind = .structuredBuffer := by
    intro ha
    by_contra hk
    simp [ha, hk] at haccess
  rw [elaborateElement] at helement
  split at helement
  · next hbuffer =>
    split at helement
    · exact absurd helement fault_ne_ok
    · simp only [bind_eq_ok, pure_eq_ok, elaborateValueType_eq_ok] at helement
      obtain ⟨ty, ⟨hty, hv⟩, rfl⟩ := helement
      exact .buffer hbuffer hty.plain hv hwrite
  · next hbuffer =>
    cases helement
    have hread : d.access = .readOnly := by
      cases ha : d.access with
      | readOnly => rfl
      | readWrite => simp [hwrite ha, ResourceKind.isBuffer] at hbuffer
    rw [hread]
    exact .plain (by simpa using hbuffer)

theorem HasResource.declares {name : String} {r : ResourceTy} (h : p.HasResource name r) :
    p.Declares r := by
  obtain ⟨d, -, hr⟩ := h
  exact elaborateResource_declares hr

theorem Declares.wellFormed {r : ResourceTy} (h : p.Declares r) : r.toTy.WellFormed p := by
  cases h with
  | plain hk => exact .resource hk
  | buffer hk hp hv ha => exact .buffer hk hp hv ha

/-- A buffer has elements, and they are of a plain type. -/
theorem Declares.element {r : ResourceTy} (h : p.Declares r) {element : Ty}
    (he : r.element = some element) : element.Plain p ∧ element.isVoid = false := by
  cases h with
  | plain => cases he
  | buffer _ hp hv _ => cases he; exact ⟨hp, hv⟩

end Program

end Shading
