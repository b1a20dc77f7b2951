import Shading.Json.Basic
import Shading.Named

/-!
# Reading JSON values

Data is read from a value by looking at its parts.  A `Part` of a value comes
with the proof that it is smaller, so a reader of nested data calls itself on
parts and ends.

Nothing here fails with a reason: data either has the expected shape or not.
-/

namespace Shading.Json

/-! ## Plain values -/

def isNull : Json → Bool
  | .null => true
  | _ => false

def bool? : Json → Option Bool
  | .bool value => some value
  | _ => none

def string? : Json → Option String
  | .string value => some value
  | _ => none

/-- A number written as an integer. -/
def integer? : Json → Option Int
  | .number (.integer value) => some value
  | _ => none

/-- An integer in the range of a word. -/
def within? {α : Type} (least greatest : Int) (ofInt : Int → α) (j : Json) : Option α := do
  let value ← j.integer?
  if least ≤ value ∧ value ≤ greatest then some (ofInt value) else none

def uint8? : Json → Option UInt8 := within? 0 0xFF fun value => .ofNat value.toNat

def uint32? : Json → Option UInt32 := within? 0 0xFFFFFFFF fun value => .ofNat value.toNat

def int32? : Json → Option Int32 := within? (-0x80000000) 0x7FFFFFFF .ofInt

/-- A value of a listed type, by its name. -/
def named? {α : Type} [Named α] (j : Json) : Option α := j.string?.bind Named.ofName?

/-- A value of a listed type is written as its name. -/
def ofNamed {α : Type} [Named α] (value : α) : Json := .string (Named.name value)

/-! ## Parts -/

/-- A value inside another one. -/
abbrev Part (whole : Json) := { part : Json // sizeOf part < sizeOf whole }

/-- A part is smaller than the whole. -/
theorem Part.sizeOf_lt {whole : Json} (p : Part whole) : sizeOf p.1 < sizeOf whole := p.2

/-- A part of a part. -/
def Part.widen {whole : Json} (p : Part whole) (q : Part p.1) : Part whole :=
  ⟨q.1, Nat.lt_trans q.2 p.2⟩

/-- The items of an array. -/
def items? : (j : Json) → Option (List (Part j))
  | .array items => some (items.attach.map fun item =>
    ⟨item.1, by have := List.sizeOf_lt_of_mem item.2; simp; omega⟩)
  | _ => none

/-- The member of an object. -/
def member? (name : String) : (j : Json) → Option (Part j)
  | .object members => (members.attach.find? fun member => member.1.1 == name).map fun member =>
    ⟨member.1.2, by
      have := List.sizeOf_lt_of_mem member.2
      have : sizeOf member.1 = 1 + sizeOf member.1.1 + sizeOf member.1.2 := rfl
      simp; omega⟩
  | _ => none

/-- The name of an alternative, with its content where it has some. -/
def variant? : (j : Json) → Option (String × Option (Part j))
  | .string name => some (name, none)
  | .object [(name, content)] => some (name, some ⟨content, by simp; omega⟩)
  | _ => none

/-! ## Members of objects -/

section Members

variable {α : Type}

/-- A part that may be null instead. -/
def orNull {whole : Json} (read : Part whole → Option α) (p : Part whole) : Option (Option α) :=
  if p.1.isNull then some none else (read p).map some

/-- A member that has to be there. -/
def field (j : Json) (name : String) (read : Part j → Option α) : Option α :=
  (j.member? name).bind read

/-- A member with a value to take when it is missing. -/
def fieldOr (j : Json) (name : String) (default : α) (read : Part j → Option α) : Option α :=
  match j.member? name with
  | none => some default
  | some p => read p

/-- A member that may be null or missing. -/
def fieldOption (j : Json) (name : String) (read : Part j → Option α) : Option (Option α) :=
  j.fieldOr name none (orNull read)

/-- The items of an array, each read the same way. -/
def each (j : Json) (read : Part j → Option α) : Option (List α) := do (← j.items?).mapM read

/-- An array of two items. -/
def pair {β : Type} (j : Json) (readFirst : Part j → Option α) (readSecond : Part j → Option β) :
    Option (α × β) :=
  match j.items? with
  | some [first, second] => do return (← readFirst first, ← readSecond second)
  | _ => none

namespace Part

variable {whole : Json}

/-- A member of a part that has to be there. -/
def field (p : Part whole) (name : String) (read : Part whole → Option α) : Option α :=
  p.1.field name fun q => read (p.widen q)

/-- A member of a part that may be null or missing. -/
def fieldOption (p : Part whole) (name : String) (read : Part whole → Option α) :
    Option (Option α) :=
  p.1.fieldOption name fun q => read (p.widen q)

/-- A part that may be null instead. -/
def orNull (p : Part whole) (read : Part whole → Option α) : Option (Option α) :=
  Json.orNull read p

/-- The items of a part, each read the same way. -/
def each (p : Part whole) (read : Part whole → Option α) : Option (List α) :=
  p.1.each fun q => read (p.widen q)

/-- A part that is an array of two items. -/
def pair {β : Type} (p : Part whole) (readFirst : Part whole → Option α)
    (readSecond : Part whole → Option β) : Option (α × β) :=
  p.1.pair (fun q => readFirst (p.widen q)) fun q => readSecond (p.widen q)

/-- The name and the content of an alternative in a part. -/
def variant? (p : Part whole) : Option (String × Option (Part whole)) :=
  p.1.variant?.map fun (name, content) => (name, content.map p.widen)

end Part

end Members

/-! ## What is read of a value

Reading a part does not depend on the proof that it is smaller, so each way of
reading is one of plain lists. -/

section Views

variable {α : Type}

/-- The member found is the first of its name. -/
theorem member?_object (members : List (String × Json)) (name : String) :
    ((object members).member? name).map Subtype.val = members.lookup name := by
  have found : (members.attach.find? fun member => member.1.1 == name).map Subtype.val =
      members.find? fun member => member.1 == name := by
    conv => rhs; rw [← List.attach_map_subtype_val members, List.find?_map]
    rfl
  have lookup : ∀ members : List (String × Json),
      members.lookup name = (members.find? fun member => member.1 == name).map Prod.snd := by
    intro members
    induction members with
    | nil => rfl
    | cons member rest ih =>
      rw [List.lookup_cons, List.find?_cons, ih, BEq.comm (a := name)]
      cases member.1 == name <;> rfl
  rw [lookup, ← found, member?, Option.map_map, Option.map_map]
  rfl

/-- A member that has to be there is read where it is found. -/
theorem field_object (members : List (String × Json)) (name : String) (read : Json → Option α) :
    ((object members).field name fun p => read p.1) = (members.lookup name).bind read := by
  rw [← member?_object, field, Option.bind_map]
  rfl

/-- A member that may be missing is read where it is found. -/
theorem fieldOr_object (members : List (String × Json)) (name : String) (default : α)
    (read : Json → Option α) :
    ((object members).fieldOr name default fun p => read p.1) =
      (members.lookup name).elim (some default) read := by
  rw [← member?_object, fieldOr]
  cases (object members).member? name <;> rfl

/-- The items of an array are read in order. -/
theorem each_array (items : List Json) (read : Json → Option α) :
    ((array items).each fun p => read p.1) = items.mapM read := by
  simp only [each, items?, Option.bind_eq_bind, Option.bind_some, List.mapM_map]
  conv => rhs; rw [← List.attach_map_subtype_val items, List.mapM_map]
  rfl

end Views

end Shading.Json
