/-!
# JSON values

A JSON value as the hand-over format uses it.  A number keeps apart what is
written as an integer and what is written with a fraction or an exponent, and it
keeps the sign of a zero.  The members of an object keep their order.
-/

namespace Shading

/-- A JSON number as it is written. -/
inductive Json.Number where
  | integer (value : Int)
  /-- The decimal `± mantissa · 10 ^ exponent`. -/
  | decimal (negative : Bool) (mantissa : Nat) (exponent : Int)
deriving DecidableEq, Repr

/-- A JSON value. -/
inductive Json where
  | null
  | bool (value : Bool)
  | number (value : Json.Number)
  | string (value : String)
  | array (items : List Json)
  | object (members : List (String × Json))
deriving Repr

namespace Json

/-- An integer. -/
def integer (value : Int) : Json := .number (.integer value)

/-- A natural number. -/
def natural (value : Nat) : Json := integer value

/-- A value that may be missing. -/
def optional {α : Type} (encode : α → Json) : Option α → Json
  | none => .null
  | some value => encode value

/-- The values of a list. -/
def list {α : Type} (encode : α → Json) (values : List α) : Json := .array (values.map encode)

/-- The strings of a list. -/
def strings (values : List String) : Json := list .string values

/-- One of several alternatives: its name, with its content where it has some. -/
def variant (name : String) : Option Json → Json
  | none => .string name
  | some content => .object [(name, content)]

/-- Sets a member of an object.  A member that is set already keeps its place. -/
def setMember (name : String) (value : Json) : List (String × Json) → List (String × Json)
  | [] => [(name, value)]
  | member :: rest =>
    if member.1 = name then (name, value) :: rest else member :: setMember name value rest

/-- The member set last is the one that is found. -/
@[simp] theorem lookup_setMember_self (name : String) (value : Json)
    (members : List (String × Json)) :
    (setMember name value members).lookup name = some value := by
  induction members with
  | nil => simp [setMember]
  | cons member rest ih =>
    rw [setMember]
    split
    · simp
    · rename_i h
      rw [List.lookup_cons, ih]
      simp [show (name == member.1) = false from beq_false_of_ne (Ne.symm h)]

end Json

end Shading
