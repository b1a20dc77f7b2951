import Mathlib.Data.List.Forall2
import Shading.Handover.Program

/-!
# Values with members left out

A writer may leave out members of objects that a reader puts back: a member that is null,
and one of `defaults`.  `Trims` relates a value to what may be written for it, at any depth.
The content of `Return` is no member of this kind, because it belongs to an alternative
and not to a record.

`Reads` says that a reader gives back what was written, whatever was left out.  Each way of
reading has a rule for it: strings and numbers, arrays, alternatives, and members that
have to be there (`Remains.field`), that may be null (`Remains.fieldOption`) or that have a value
to take (`Remains.fieldOr`).
-/

namespace Shading.Json

/-! ## Trimming -/

/-- The values besides null that need not be written, by the names of their members. -/
def defaults : List (String × Json) := [
  ("structs", .array []), ("resources", .array []), ("functions", .array []),
  ("shader_sets", .array []), ("access", .ofNamed Access.readOnly),
  ("direction", .ofNamed Passing.input), ("metadata", FunctionMetadata.helper.toJson)]

/-- A member that need not be written. -/
def Omittable (name : String) (value : Json) : Prop :=
  value = .null ∧ name ≠ "Return" ∨ (name, value) ∈ defaults

mutual

/-- A value with members left out that need not be written. -/
inductive Trims : Json → Json → Prop where
  | null : Trims .null .null
  | bool (value : Bool) : Trims (.bool value) (.bool value)
  | number (value : Number) : Trims (.number value) (.number value)
  | string (value : String) : Trims (.string value) (.string value)
  | array {items items' : List Json} : List.Forall₂ Trims items items' →
      Trims (.array items) (.array items')
  | object {members members' : List (String × Json)} : TrimsMembers members members' →
      Trims (.object members) (.object members')

inductive TrimsMembers : List (String × Json) → List (String × Json) → Prop where
  | nil : TrimsMembers [] []
  | keep {name : String} {value value' : Json} {rest rest' : List (String × Json)} :
      Trims value value' → TrimsMembers rest rest' →
        TrimsMembers ((name, value) :: rest) ((name, value') :: rest')
  | leave {name : String} {value : Json} {rest rest' : List (String × Json)} :
      Omittable name value → TrimsMembers rest rest' →
        TrimsMembers ((name, value) :: rest) rest'

end

mutual

/-- Nothing has to be left out. -/
theorem Trims.refl : (j : Json) → Trims j j
  | .null => .null
  | .bool value => .bool value
  | .number value => .number value
  | .string value => .string value
  | .array items => .array (forall₂_trims_refl items)
  | .object members => .object (TrimsMembers.refl members)

theorem forall₂_trims_refl : (items : List Json) → List.Forall₂ Trims items items
  | [] => .nil
  | item :: rest => .cons (Trims.refl item) (forall₂_trims_refl rest)

theorem TrimsMembers.refl : (members : List (String × Json)) → TrimsMembers members members
  | [] => .nil
  | (_, value) :: rest => .keep (Trims.refl value) (TrimsMembers.refl rest)

end

/-! ## Names -/

/-- A type whose values are listed, with names that differ. -/
class LawfulNamed (α : Type) [Named α] : Prop where
  ofName?_name (a : α) : Named.ofName? (Named.name a) = some a

instance : LawfulNamed Stage := ⟨by rintro ⟨⟩ <;> rfl⟩
instance : LawfulNamed ScalarKind := ⟨by rintro ⟨⟩ <;> rfl⟩
instance : LawfulNamed ResourceKind := ⟨by rintro ⟨⟩ <;> rfl⟩
instance : LawfulNamed Access := ⟨by rintro ⟨⟩ <;> rfl⟩
instance : LawfulNamed Passing := ⟨by rintro ⟨⟩ <;> rfl⟩
instance : LawfulNamed UnaryOp := ⟨by rintro ⟨⟩ <;> rfl⟩
instance : LawfulNamed BinaryOp := ⟨by rintro ⟨⟩ <;> rfl⟩
instance : LawfulNamed AssignOp := ⟨by rintro ⟨⟩ <;> rfl⟩

/-! ## What is found -/

theorem not_omittable {name : String} {value : Json} (hn : name ∉ defaults.map Prod.fst)
    (hv : value.isNull = false) : ¬ Omittable name value := by
  rintro (⟨rfl, -⟩ | hmem)
  · cases hv
  · exact hn (List.mem_map_of_mem hmem)

/-- What is left out stays away, and what is kept is found trimmed. -/
def Remains (members members' : List (String × Json)) : Prop :=
  ∀ name value, members.lookup name = some value →
    (∃ value', Trims value value' ∧ members'.lookup name = some value') ∨
      Omittable name value ∧ members'.lookup name = none

/-- Only names that were written are found. -/
theorem lookup_eq_none_of_trims {members members' : List (String × Json)}
    (h : TrimsMembers members members') {name : String} (hn : name ∉ members.map Prod.fst) :
    members'.lookup name = none := by
  induction members generalizing members' with
  | nil =>
    cases h
    rfl
  | cons member rest ih =>
    rw [List.map_cons, List.mem_cons, not_or] at hn
    cases h with
    | keep _ hrest => rw [List.lookup_cons, beq_false_of_ne hn.1, ih hrest hn.2]
    | leave _ hrest => exact ih hrest hn.2

theorem remains_of_trims {members members' : List (String × Json)}
    (hd : (members.map Prod.fst).Nodup) (h : TrimsMembers members members') :
    Remains members members' := by
  induction members generalizing members' with
  | nil => exact nofun
  | cons member rest ih =>
    obtain ⟨hnew, hrest⟩ := List.nodup_cons.1 hd
    intro name value hvalue
    rw [List.lookup_cons] at hvalue
    cases h with
    | @keep other _ value' _ _ hkeep ht =>
      rw [List.lookup_cons]
      by_cases hname : name = other
      · obtain rfl : _ = value := by simpa [hname] using hvalue
        exact .inl ⟨value', hkeep, by simp [hname]⟩
      · rw [beq_false_of_ne hname] at hvalue ⊢
        exact ih hrest ht name value hvalue
    | @leave other _ _ _ hleave ht =>
      by_cases hname : name = other
      · obtain rfl : _ = value := by simpa [hname] using hvalue
        exact .inr ⟨hname ▸ hleave, lookup_eq_none_of_trims ht (hname ▸ hnew)⟩
      · rw [beq_false_of_ne hname] at hvalue
        exact ih hrest ht name value hvalue

theorem exists_remains {members : List (String × Json)} {j : Json}
    (hd : (members.map Prod.fst).Nodup) (h : Trims (.object members) j) :
    ∃ members', j = .object members' ∧ Remains members members' := by
  cases h with
  | object hmembers => exact ⟨_, rfl, remains_of_trims hd hmembers⟩

/-- The content of an alternative is trimmed, but not left out. -/
theorem exists_variant {name : String} {content j : Json} (ho : ¬ Omittable name content)
    (h : Trims (.variant name (some content)) j) :
    ∃ content', Trims content content' ∧ j = .variant name (some content') := by
  cases h with
  | object hmembers =>
    cases hmembers with
    | leave hleave _ => exact absurd hleave ho
    | keep hkeep hnil =>
      cases hnil
      exact ⟨_, hkeep, rfl⟩

/-! ## Reading -/

/-- A step that answers is followed by the next one. -/
theorem bind_of_some {α β : Type} {x : Option α} {f : α → Option β} {a : α} (h : x = some a) :
    (x >>= f) = f a := by
  rw [h]
  rfl

/-- A reader gives back what a value was written for, whatever is left out of it. -/
structure Reads {α : Type} (read : Json → Option α) (j : Json) (a : α) : Prop where
  /-- The value is not one that is missing. -/
  solid : j.isNull = false
  read : ∀ j', Trims j j' → read j' = some a

section Rules

variable {α β : Type} {read : Json → Option α} {a : α} {j : Json}

theorem Reads.written (h : Reads read j a) : read j = some a := h.read j (.refl j)

/-- A value is written for one thing only. -/
theorem Reads.unique {b : α} (h : Reads read j a) (h' : Reads read j b) : a = b :=
  Option.some.inj (h.written.symm.trans h'.written)

namespace Reads

theorem string (value : String) : Reads string? (.string value) value where
  solid := rfl
  read := by rintro _ ⟨⟩; rfl

theorem bool (value : Bool) : Reads bool? (.bool value) value where
  solid := rfl
  read := by rintro _ ⟨⟩; rfl

/-- A word is read back when making a word of its value does. -/
theorem within {ofInt : Int → α} {least greatest value : Int} (hl : least ≤ value)
    (hg : value ≤ greatest) (ha : ofInt value = a) :
    Reads (within? least greatest ofInt) (.integer value) a where
  solid := rfl
  read := by
    rintro _ ⟨⟩
    rw [← ha]
    exact if_pos ⟨hl, hg⟩

theorem uint8 (value : UInt8) : Reads uint8? (.natural value.toNat) value :=
  within (Int.natCast_nonneg _) (by have := value.toNat_lt; omega) (by simp)

theorem uint32 (value : UInt32) : Reads uint32? (.natural value.toNat) value :=
  within (Int.natCast_nonneg _) (by have := value.toNat_lt; omega) (by simp)

theorem int32 (value : Int32) : Reads int32? (.integer value.toInt) value :=
  within value.le_toInt (by have := value.toInt_lt; omega) (by simp)

theorem named [Named α] [LawfulNamed α] (a : α) : Reads named? (.ofNamed a) a where
  solid := rfl
  read := by
    rintro _ ⟨⟩
    exact LawfulNamed.ofName?_name a

theorem each {encode : α → Json} {values : List α}
    (h : ∀ value ∈ values, Reads read (encode value) value) :
    Reads (fun j => j.each fun p => read p.1) (list encode values) values where
  solid := rfl
  read := by
    intro j' ht
    cases ht with
    | @array _ items hitems =>
      rw [each_array]
      induction values generalizing items with
      | nil =>
        cases hitems
        rfl
      | cons value values ih =>
        cases hitems with
        | cons hitem hrest =>
          have hvalue := (h value (.head _)).read _ hitem
          have hvalues := ih (fun v hv => h v (.tail _ hv)) hrest
          rw [List.mapM_cons, hvalue, hvalues]
          rfl

theorem pair {read' : Json → Option β} {j' : Json} {b : β} (h : Reads read j a)
    (h' : Reads read' j' b) :
    Reads (fun j => j.pair (fun p => read p.1) fun p => read' p.1) (.array [j, j']) (a, b) where
  solid := rfl
  read := by
    intro _ ht
    cases ht with
    | array hitems =>
      obtain ⟨first, _, hfirst, hrest, rfl⟩ := List.forall₂_cons_left_iff.1 hitems
      obtain ⟨second, _, hsecond, hnil, rfl⟩ := List.forall₂_cons_left_iff.1 hrest
      obtain rfl := List.forall₂_nil_left_iff.1 hnil
      have hpair : (array [first, second]).pair (fun p => read p.1) (fun p => read' p.1) =
          (read first).bind fun a => (read' second).bind fun b => some (a, b) := rfl
      rw [hpair, h.read first hfirst, h'.read second hsecond]
      rfl

/-- An alternative without content is its name. -/
theorem plain {name : String} (h : read (.string name) = some a) :
    Reads read (.variant name none) a where
  solid := rfl
  read := by
    rintro _ ⟨⟩
    exact h

/-- An alternative whose content is read back, whatever is left out of the content. -/
theorem variant {name : String} {content : Json} (ho : ¬ Omittable name content)
    (h : ∀ content', Trims content content' → read (.variant name (some content')) = some a) :
    Reads read (.variant name (some content)) a where
  solid := rfl
  read := by
    intro _ ht
    obtain ⟨content', hcontent, rfl⟩ := exists_variant ho ht
    exact h content' hcontent

/-- An alternative that wraps what its content is read as. -/
theorem wrapped {inner : Json → Option β} {name : String} {content : Json} {b : β} {f : β → α}
    (hn : name ∉ defaults.map Prod.fst) (hv : Reads inner content b)
    (heq : ∀ c, read (.variant name (some c)) = (inner c).map f) :
    Reads read (.variant name (some content)) (f b) := by
  refine variant (not_omittable hn hv.solid) fun c hc => ?_
  rw [heq, hv.read c hc]
  rfl

theorem object {members : List (String × Json)} (hd : (members.map Prod.fst).Nodup)
    (h : ∀ members', Remains members members' → read (.object members') = some a) :
    Reads read (.object members) a where
  solid := rfl
  read := by
    intro _ ht
    obtain ⟨members', rfl, hr⟩ := exists_remains hd ht
    exact h members' hr

end Reads

/-- Trimming leaves what is missing missing, and what is there, there. -/
theorem isNull_of_trims {j j' : Json} (h : Trims j j') : j'.isNull = j.isNull := by
  cases h <;> rfl

/-- A value that may be null is read back when it is there. -/
theorem read_of_trims_optional {encode : α → Json} {o : Option α} {j : Json}
    (hv : ∀ a, o = some a → Reads read (encode a) a) (ht : Trims (.optional encode o) j) :
    (if j.isNull then some none else (read j).map some) = some o := by
  rw [isNull_of_trims ht]
  cases o with
  | none => rfl
  | some a =>
    have ha := hv a rfl
    rw [optional, ha.solid, ha.read j ht]
    rfl

namespace Remains

variable {members members' : List (String × Json)} {value : Json}

/-- A member that has to be there is there. -/
theorem exists_lookup (hr : Remains members members') (name : String)
    (hl : members.lookup name = some value) (ho : ¬ Omittable name value) :
    ∃ value', Trims value value' ∧ members'.lookup name = some value' :=
  (hr name value hl).resolve_right fun h => ho h.1

theorem field (hr : Remains members members') (name : String)
    (hl : members.lookup name = some value) (hn : name ∉ defaults.map Prod.fst)
    (hv : Reads read value a) :
    ((Json.object members').field name fun p => read p.1) = some a := by
  obtain ⟨value', ht, hl'⟩ := hr.exists_lookup name hl (not_omittable hn hv.solid)
  rw [field_object, hl']
  exact hv.read value' ht

/-- A member with a value to take is left out only when it is written as this value is. -/
theorem fieldOr (hr : Remains members members') (name : String) (default : α)
    (hl : members.lookup name = some value) (hv : Reads read value a)
    (hd : ∀ v, (name, v) ∈ defaults → Reads read v default) :
    ((Json.object members').fieldOr name default fun p => read p.1) = some a := by
  rw [fieldOr_object]
  rcases hr name value hl with ⟨value', ht, hl'⟩ | ⟨⟨rfl, -⟩ | hmem, hl'⟩
  · rw [hl']
    exact hv.read value' ht
  · exact absurd hv.solid Bool.noConfusion
  · rw [hl', hv.unique (hd value hmem)]
    rfl

theorem fieldOption {encode : α → Json} {o : Option α} (hr : Remains members members')
    (name : String) (hl : members.lookup name = some (.optional encode o))
    (hn : name ∉ defaults.map Prod.fst)
    (hv : ∀ a, o = some a → Reads read (encode a) a) :
    ((Json.object members').fieldOption name fun p => read p.1) = some o := by
  have hfield : ((Json.object members').fieldOption name fun p => read p.1) =
      (members'.lookup name).elim (some none) fun j =>
        if j.isNull then some none else (read j).map some :=
    fieldOr_object members' name none fun j => if j.isNull then some none else (read j).map some
  rw [hfield]
  rcases hr name _ hl with ⟨value', ht, hl'⟩ | ⟨⟨hnull, -⟩ | hmem, hl'⟩
  · rw [hl', Option.elim_some]
    exact read_of_trims_optional hv ht
  · cases o with
    | none => rw [hl', Option.elim_none]
    | some a =>
      have hsolid := (hv a rfl).solid
      rw [show encode a = .null from hnull] at hsolid
      cases hsolid
  · exact absurd (List.mem_map_of_mem hmem) hn

end Remains

end Rules

end Shading.Json
